import Scoping.Proofs.Naming
import Scoping.Proofs.Run

/-!
# Membership

That a symbol is defined in a scope is told by the list of the scope, by its index of
names, and by the symbol itself with its position. All of them tell the same.
-/

namespace Scoping

namespace Table

variable {t u : Table} {r s : ScopeId} {x y : SymbolId} {a : Symbol} {c d : Scope} {n : Name}
  {text : String} {l : List SymbolId} {kinds : Kind → Prop}

/-! ### Questions about members -/

theorem symbolsOf_eq_ok_iff :
    t.symbolsOf s = .ok l ↔ ∃ c, t.scope s = .ok c ∧ c.members.toList = l := by
  rw [symbolsOf, Answer.bind_eq_ok_iff]
  simp

theorem owningScope?_eq_ok_iff {home : Option ScopeId} :
    t.owningScope? x = .ok home ↔ ∃ a, t.symbol x = .ok a ∧ a.owningScope? = home := by
  rw [owningScope?, Answer.bind_eq_ok_iff]
  simp

theorem insertionOrder?_eq_ok_iff {place : Option Nat} :
    t.insertionOrder? x = .ok place ↔ ∃ a, t.symbol x = .ok a ∧ a.insertionOrder? = place := by
  rw [insertionOrder?, Answer.bind_eq_ok_iff]
  simp

theorem find?_of_scope (read : t.scope s = .ok c) (text : String) :
    t.find? s text = .ok ((t.names.find? text).bind c.find?) := by
  rw [find?]
  cases t.names.find? text with
  | none => rfl
  | some n => simp [read]

/-- A symbol is listed in a scope just when it is defined there. -/
theorem Consistent.mem_members_iff (consistent : t.Consistent) (read : t.scope s = .ok c) :
    x ∈ c.members ↔ ∃ a, t.symbol x = .ok a ∧ a.owningScope? = some s := by
  constructor
  · intro listed
    obtain ⟨a, symbol, home, _⟩ := consistent.member read listed
    exact ⟨a, symbol, home⟩
  · rintro ⟨a, symbol, home⟩
    obtain ⟨c', read', listed⟩ := consistent.home symbol home
    cases Except.ok.inj (read.symm.trans read')
    exact listed

/-- A scope finds by a name the symbol of that name that is defined in it. -/
theorem Consistent.find?_eq_some_iff (consistent : t.Consistent) (read : t.scope s = .ok c) :
    c.find? n = some x ↔ ∃ a, t.symbol x = .ok a ∧ a.owningScope? = some s ∧ a.name = n := by
  constructor
  · intro found
    obtain ⟨listed, a, symbol, name⟩ := consistent.found read found
    obtain ⟨a', symbol', home⟩ := (consistent.mem_members_iff read).mp listed
    cases Except.ok.inj (symbol.symm.trans symbol')
    exact ⟨a, symbol, home, name⟩
  · rintro ⟨a, symbol, home, rfl⟩
    have listed := (consistent.mem_members_iff read).mpr ⟨a, symbol, home⟩
    obtain ⟨a', symbol', _, found⟩ := consistent.member read listed
    cases Except.ok.inj (symbol.symm.trans symbol')
    exact found

/-- The scope lists the symbol, and the symbol is called so. -/
def Lists (t : Table) (s : ScopeId) (text : String) (x : SymbolId) : Prop :=
  ∃ l, t.symbolsOf s = .ok l ∧ x ∈ l ∧ t.symbolName x = .ok text

/-- The index of a scope finds what the scope lists. -/
theorem Consistent.lists_iff (consistent : t.Consistent) (named : t.Named)
    (read : t.scope s = .ok c) :
    t.Lists s text x ↔ (t.names.find? text).bind c.find? = some x := by
  have listed : t.symbolsOf s = .ok c.members.toList := symbolsOf_eq_ok_iff.mpr ⟨c, read, rfl⟩
  rw [Option.bind_eq_some_iff]
  constructor
  · rintro ⟨l, known, member, called⟩
    cases Except.ok.inj (listed.symm.trans known)
    obtain ⟨a, symbol, reads⟩ := named.symbolName_eq_ok_iff.mp called
    obtain ⟨a', symbol', _, found⟩ := consistent.member read (Array.mem_toList_iff.mp member)
    cases Except.ok.inj (symbol.symm.trans symbol')
    exact ⟨a.name, (Names.find?_eq_some_iff named.sound).mpr reads, found⟩
  · rintro ⟨n, known, found⟩
    obtain ⟨member, a, symbol, rfl⟩ := consistent.found read found
    have reads := (Names.find?_eq_some_iff named.sound).mp known
    exact ⟨_, listed, Array.mem_toList_iff.mpr member,
      named.symbolName_eq_ok_iff.mpr ⟨a, symbol, reads⟩⟩

theorem Consistent.lists_iff_find? (consistent : t.Consistent) (named : t.Named)
    (given : t.HasScope s) : t.Lists s text x ↔ t.find? s text = .ok (some x) := by
  obtain ⟨c, read⟩ := hasScope_iff.mp given
  rw [consistent.lists_iff named read, find?_of_scope read, Except.ok.injEq]

/-- A scope finds nothing by a name just when nothing that it lists is called so. -/
theorem Consistent.find?_eq_none_iff (consistent : t.Consistent) (named : t.Named)
    (given : t.HasScope s) : t.find? s text = .ok none ↔ ∀ x, ¬ t.Lists s text x := by
  obtain ⟨c, read⟩ := hasScope_iff.mp given
  simp only [consistent.lists_iff named read, find?_of_scope read, Except.ok.injEq]
  exact Option.eq_none_iff_forall_ne_some

/-- What a scope lists under one name is one symbol. -/
theorem Consistent.lists_unique (consistent : t.Consistent) (named : t.Named)
    (first : t.Lists s text x) (second : t.Lists s text y) : x = y := by
  obtain ⟨_, listed, _⟩ := id first
  obtain ⟨c, read, _⟩ := symbolsOf_eq_ok_iff.mp listed
  have found := (consistent.lists_iff named read).mp first
  rw [(consistent.lists_iff named read).mp second] at found
  exact (Option.some.inj found).symm

/-! ### Positions -/

/-- Every symbol stands in its scope at the position that it was given. -/
def Positioned (t : Table) : Prop := ∀ x a p, t.symbol x = .ok a → a.placement = some p →
  ∃ c, t.scope p.scope = .ok c ∧ c.members[p.position]? = some x

theorem positioned_new (config : Config) : (Table.new config).Positioned :=
  fun _ _ _ read _ => absurd read symbol_new

theorem Positioned.sameShape (positioned : t.Positioned) (same : SameShape t u) :
    u.Positioned := by
  intro x b p symbol placed
  obtain ⟨a, symbol', shape⟩ := same.symm.symbol symbol
  rw [Symbol.shape_eq_iff] at shape
  obtain ⟨c, read, there⟩ := positioned _ _ _ symbol' (shape.2.2.2.2.trans placed)
  obtain ⟨d, read', shape'⟩ := same.scope read
  exact ⟨d, read', (Scope.shape_eq_iff.mp shape').2.2.1 ▸ there⟩

theorem Positioned.declare {spec : Spec} (positioned : t.Positioned)
    (declared : t.declare text spec = .ok (x, u)) : u.Positioned := by
  obtain ⟨_, _, name, form, pushed, fresh⟩ := declare_eq_ok declared
  intro y b p symbol placed
  rcases (symbol_push_iff pushed).mp symbol with old | ⟨_, rfl⟩
  · obtain ⟨c, read, there⟩ := positioned _ _ _ old placed
    exact ⟨c, fresh.scope_iff.mpr (.inl read), there⟩
  · cases placed

theorem Positioned.openScope (positioned : t.Positioned) (s : ScopeId) :
    (t.openScope s).2.Positioned := by
  have pushed : (t.openScope s).2.scopes =
      t.scopes.push { kind := .block, enclosing := some s } := rfl
  intro y b p symbol placed
  obtain ⟨c, read, there⟩ := positioned y b p symbol placed
  exact ⟨c, (scope_push_iff pushed).mpr (.inl read), there⟩

/-- The symbol that is placed comes last; no other moves. -/
theorem Positioned.placed (positioned : t.Positioned) (admits : Admits t s x a c) :
    (t.placed s x a c).Positioned := by
  intro y e p symbol placed
  obtain ⟨e₀, symbol₀, rfl⟩ := of_symbol_placed symbol
  by_cases same : x = y
  · rw [placedSymbol, if_pos same] at placed
    cases placed
    refine ⟨_, scope_placed admits.scope, ?_⟩
    rw [members_placedScope, if_pos rfl, ← same]
    exact Array.getElem?_push_size
  · rw [placedSymbol, if_neg same] at placed
    obtain ⟨d, read, there⟩ := positioned _ _ _ symbol₀ placed
    refine ⟨_, scope_placed read, ?_⟩
    rw [members_placedScope]
    split
    · have before : p.position < d.members.size := (Array.getElem?_eq_some_iff.mp there).1
      rw [Array.getElem?_push, if_neg (Nat.ne_of_lt before), there]
    · exact there

theorem Positioned.change (positioned : t.Positioned) (change : Change kinds t u) :
    u.Positioned := by
  refine change.keeps_shape positioned (fun same positioned => positioned.sameShape same) ?_ ?_ ?_
  · exact positioned.declare
  · exact fun _ => positioned.openScope _
  · exact positioned.placed

theorem Reachable.positioned (reachable : t.Reachable) : t.Positioned :=
  reachable.keeps positioned_new fun _ _ positioned change => positioned.change change

/-- A symbol is listed at a position just when it was placed there. -/
theorem Consistent.getElem?_members_iff (consistent : t.Consistent) (positioned : t.Positioned)
    (read : t.scope s = .ok c) {i : Nat} :
    c.members[i]? = some x ↔ ∃ a, t.symbol x = .ok a ∧ a.placement = some ⟨s, i⟩ := by
  constructor
  · intro nth
    obtain ⟨a, symbol, home⟩ :=
      (consistent.mem_members_iff read).mp (Array.mem_of_getElem? nth)
    obtain ⟨p, placed, rfl⟩ := Option.map_eq_some_iff.mp home
    obtain ⟨c', read', there⟩ := positioned _ _ _ symbol placed
    cases Except.ok.inj (read.symm.trans read')
    -- the symbol stands at both positions, and no symbol is listed twice
    rw [← Array.getElem?_toList] at nth there
    obtain ⟨short, _⟩ := List.getElem?_eq_some_iff.mp nth
    have here := (List.getElem?_inj short (consistent.distinct read)).mp (nth.trans there.symm)
    exact ⟨a, symbol, here ▸ placed⟩
  · rintro ⟨a, symbol, placed⟩
    obtain ⟨c', read', there⟩ := positioned _ _ _ symbol placed
    cases Except.ok.inj (read.symm.trans read')
    exact there

/-! ### The members of a scope -/

theorem lists_iff_mem (listed : t.symbolsOf s = .ok l) (called : t.symbolName x = .ok text) :
    t.Lists s text x ↔ x ∈ l := by
  constructor
  · rintro ⟨_, known, member, _⟩
    cases Except.ok.inj (listed.symm.trans known)
    exact member
  · exact fun member => ⟨l, listed, member, called⟩

theorem Consistent.mem_symbolsOf_iff (consistent : t.Consistent)
    (listed : t.symbolsOf s = .ok l) : x ∈ l ↔ t.owningScope? x = .ok (some s) := by
  obtain ⟨c, read, rfl⟩ := symbolsOf_eq_ok_iff.mp listed
  rw [Array.mem_toList_iff, consistent.mem_members_iff read, owningScope?_eq_ok_iff]

theorem Consistent.nodup_symbolsOf (consistent : t.Consistent)
    (listed : t.symbolsOf s = .ok l) : l.Nodup := by
  obtain ⟨c, read, rfl⟩ := symbolsOf_eq_ok_iff.mp listed
  exact consistent.distinct read

theorem Consistent.getElem?_symbolsOf_iff (consistent : t.Consistent)
    (positioned : t.Positioned) (listed : t.symbolsOf s = .ok l) {i : Nat} : l[i]? = some x ↔
      t.owningScope? x = .ok (some s) ∧ t.insertionOrder? x = .ok (some i) := by
  obtain ⟨c, read, rfl⟩ := symbolsOf_eq_ok_iff.mp listed
  rw [Array.getElem?_toList, consistent.getElem?_members_iff positioned read,
    owningScope?_eq_ok_iff, insertionOrder?_eq_ok_iff]
  constructor
  · rintro ⟨a, symbol, placed⟩
    have home : a.owningScope? = some s := by rw [Symbol.owningScope?, placed]; rfl
    have place : a.insertionOrder? = some i := by rw [Symbol.insertionOrder?, placed]; rfl
    exact ⟨⟨a, symbol, home⟩, a, symbol, place⟩
  · rintro ⟨⟨a, symbol, home⟩, a', symbol', place⟩
    cases Except.ok.inj (symbol.symm.trans symbol')
    obtain ⟨p, placed, rfl⟩ := Option.map_eq_some_iff.mp home
    rw [Symbol.insertionOrder?, placed, Option.map_some, Option.some.injEq] at place
    exact ⟨a, symbol, place ▸ placed⟩

/-- Every symbol is called something. -/
theorem Named.exists_symbolName (named : t.Named) (given : t.HasSymbol x) :
    ∃ text, t.symbolName x = .ok text := by
  obtain ⟨a, symbol⟩ := hasSymbol_iff.mp given
  obtain ⟨text, reads⟩ := named.reads symbol
  exact ⟨text, named.symbolName_eq_ok_iff.mpr ⟨a, symbol, reads⟩⟩

/-- The names of what a scope lists are pairwise different. -/
theorem Consistent.symbolNames (consistent : t.Consistent) (named : t.Named)
    (listed : t.symbolsOf s = .ok l) : ∃ names, t.symbolNames s = .ok names ∧ names.Nodup := by
  let called (x : SymbolId) : String := (t.symbolName x).toOption.getD ""
  have known : ∀ x ∈ l, t.symbolName x = .ok (called x) := by
    intro x member
    obtain ⟨a, symbol, _⟩ :=
      owningScope?_eq_ok_iff.mp ((consistent.mem_symbolsOf_iff listed).mp member)
    obtain ⟨text, name⟩ := named.exists_symbolName (hasSymbol_iff.mpr ⟨a, symbol⟩)
    simp [called, name, Except.toOption]
  refine ⟨l.map called, ?_, ?_⟩
  · rw [Table.symbolNames, listed, Answer.ok_bind]
    exact Answer.mapM_eq_ok known
  · refine (consistent.nodup_symbolsOf listed).map_on fun x here y there same => ?_
    exact consistent.lists_unique named ⟨l, listed, here, known x here⟩
      ⟨l, listed, there, same ▸ known y there⟩

/-- In every reachable table the members of a scope, in their order, are the symbols that
say of themselves that they are defined there, each at its position. A scope finds them by
their names, which are pairwise different, and nothing else. -/
theorem Reachable.membership (reachable : t.Reachable) :
    (∀ s, t.HasScope s → ∃ l, t.symbolsOf s = .ok l ∧ l.Nodup ∧
      (∀ x i, l[i]? = some x ↔
        t.owningScope? x = .ok (some s) ∧ t.insertionOrder? x = .ok (some i)) ∧
      (∀ x, t.HasSymbol x → ∃ text, t.symbolName x = .ok text ∧
        (t.find? s text = .ok (some x) ↔ x ∈ l)) ∧
      (∀ text, t.find? s text = .ok none ↔ ∀ x ∈ l, t.symbolName x ≠ .ok text) ∧
      ∃ names, t.symbolNames s = .ok names ∧ names.Nodup) ∧
    (∀ x r s l m, t.symbolsOf r = .ok l → t.symbolsOf s = .ok m → x ∈ l → x ∈ m → r = s) ∧
    ∀ x, t.HasSymbol x → ∃ home place, t.owningScope? x = .ok home ∧
      t.insertionOrder? x = .ok place ∧ (home.isSome ↔ place.isSome) := by
  have consistent := reachable.consistent
  have named := reachable.named
  refine ⟨fun s given => ?_, fun x r s l m here there inside inside' => ?_, fun x given => ?_⟩
  · obtain ⟨c, read⟩ := hasScope_iff.mp given
    have listed : t.symbolsOf s = .ok c.members.toList := symbolsOf_eq_ok_iff.mpr ⟨c, read, rfl⟩
    refine ⟨_, listed, consistent.nodup_symbolsOf listed,
      fun x i => consistent.getElem?_symbolsOf_iff reachable.positioned listed,
      fun x symbol => ?_, fun text => ?_, consistent.symbolNames named listed⟩
    · obtain ⟨text, called⟩ := named.exists_symbolName symbol
      refine ⟨text, called, ?_⟩
      rw [← consistent.lists_iff_find? named given, lists_iff_mem listed called]
    · rw [consistent.find?_eq_none_iff named given]
      constructor
      · exact fun nothing x member called => nothing x ((lists_iff_mem listed called).mpr member)
      · rintro others x lists
        obtain ⟨_, _, _, called⟩ := id lists
        exact others x ((lists_iff_mem listed called).mp lists) called
  · have home := (consistent.mem_symbolsOf_iff here).mp inside
    rw [(consistent.mem_symbolsOf_iff there).mp inside', Except.ok.injEq, Option.some.injEq] at home
    exact home.symm
  · obtain ⟨a, symbol⟩ := hasSymbol_iff.mp given
    refine ⟨_, _, owningScope?_eq_ok_iff.mpr ⟨a, symbol, rfl⟩,
      insertionOrder?_eq_ok_iff.mpr ⟨a, symbol, rfl⟩, ?_⟩
    rw [Symbol.owningScope?, Symbol.insertionOrder?, Option.isSome_map, Option.isSome_map]

/-- A function with two variables in its body, of which the second is refused for its name,
and a variable of that name beside the function. -/
def twoLevels : Run where
  config := {}
  operations := [
    .declare "f" (.function none), .define .global ⟨0⟩,
    .declare "v" (.var none), .define ⟨2⟩ ⟨1⟩,
    .declare "v" (.var none), .define ⟨2⟩ ⟨2⟩,
    .declare "v" (.var none), .define .global ⟨3⟩]
  accepted := by decide +kernel

theorem twoLevels_membership : twoLevels.final.Reachable ∧
    (∃ l, twoLevels.final.symbolsOf .global = .ok l ∧ l[1]? = some ⟨3⟩) ∧
    (∃ l, twoLevels.final.symbolsOf ⟨2⟩ = .ok l ∧
      (twoLevels.final.find? ⟨2⟩ "v" = .ok (some ⟨1⟩) ↔ ⟨1⟩ ∈ l) ∧ ⟨1⟩ ∈ l) ∧
    ∃ home place, twoLevels.final.owningScope? ⟨2⟩ = .ok home ∧
      twoLevels.final.insertionOrder? ⟨2⟩ = .ok place ∧ (home.isSome ↔ place.isSome) := by
  have reachable := twoLevels.reachable twoLevels.operations.length
  obtain ⟨members, _, places⟩ := Reachable.membership reachable
  refine ⟨reachable, ?_, ?_, places ⟨2⟩ (by decide +kernel)⟩
  · obtain ⟨l, listed, _, at_, _⟩ := members .global (by decide +kernel)
    exact ⟨l, listed, (at_ ⟨3⟩ 1).mpr (by decide +kernel)⟩
  · obtain ⟨l, listed, _, at_, named, _⟩ := members ⟨2⟩ (by decide +kernel)
    obtain ⟨text, called, found⟩ := named ⟨1⟩ (by decide +kernel)
    have same : twoLevels.final.symbolName ⟨1⟩ = .ok "v" := by decide +kernel
    cases Except.ok.inj (called.symm.trans same)
    exact ⟨l, listed, found, List.mem_of_getElem? ((at_ ⟨1⟩ 0).mpr (by decide +kernel))⟩

end Table

end Scoping
