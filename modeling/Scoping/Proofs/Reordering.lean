import Mathlib.Data.Multiset.Defs
import Scoping.Proofs.Forest

/-!
# The order of definitions

A definition tells where a symbol is; whatever else a look-up asks for follows from that
and from what was there before. So the same definitions in another order lead to a table
that differs in the positions of members and in their slots only.
-/

namespace Scoping

/-- What a scope holds, its members in no order. -/
structure ScopeContent where
  kind : ScopeKind
  enclosing : Option ScopeId
  members : Multiset SymbolId
  find : Name → Option SymbolId
  blocks : Array ScopeId

def Scope.content (s : Scope) : ScopeContent :=
  ⟨s.kind, s.enclosing, s.members.toList, s.find?, s.blocks⟩

/-- A symbol without its position and its slot. -/
def Symbol.unordered (x : Symbol) : Symbol :=
  { x.unnumbered with placement := x.placement.map ({ · with position := 0 }) }

/-- What no definition changes of a scope: bodies alone are moved. -/
def Scope.frame (s : Scope) : ScopeKind × Array ScopeId × Option ScopeId :=
  (s.kind, s.blocks, if s.owner? = none then s.enclosing else none)

/-- What no definition changes of a symbol. -/
def Symbol.frame (x : Symbol) : Symbol := { x.unnumbered with placement := none }

theorem Scope.content_eq_iff {a b : Scope} : a.content = b.content ↔ a.kind = b.kind ∧
    a.enclosing = b.enclosing ∧ a.members.toList.Perm b.members.toList ∧ a.find? = b.find? ∧
    a.blocks = b.blocks := by
  simp only [content, ScopeContent.mk.injEq, Multiset.coe_eq_coe]

theorem Scope.aspect_of_content {a b : Scope} (same : a.content = b.content) :
    a.aspect = b.aspect := by
  rw [content_eq_iff] at same
  exact aspect_eq_iff.mpr ⟨same.1, same.2.1, same.2.2.2.1⟩

namespace Symbol

variable {a b : Symbol}

theorem owningScope?_unordered (x : Symbol) : x.unordered.owningScope? = x.owningScope? := by
  rw [owningScope?, unordered, Option.map_map]
  rfl

theorem aspect_of_unordered (same : a.unordered = b.unordered) : a.aspect = b.aspect := by
  have plain : ∀ x : Symbol, x.unordered.aspect = x.aspect := by
    intro x
    simp only [aspect, owningScope?_unordered]
    simp only [unordered, unnumbered, kind, Form.kind_unnumbered, Form.body?_unnumbered,
      Form.superclassName?_unnumbered]
  rw [← plain a, same, plain b]

theorem name_of_frame (same : a.frame = b.frame) : a.name = b.name := by
  have names : a.frame.name = b.frame.name := congrArg Symbol.name same
  exact names

theorem body?_of_frame (same : a.frame = b.frame) : a.form.body? = b.form.body? := by
  have forms : a.form.unnumbered = b.form.unnumbered := congrArg Symbol.form same
  rw [← Form.body?_unnumbered a.form, forms, Form.body?_unnumbered]

/-- A symbol is known by what no definition changes of it, and where it is. -/
theorem unordered_of_frame (same : a.frame = b.frame) (home : a.owningScope? = b.owningScope?) :
    a.unordered = b.unordered := by
  have placements : a.placement.map (fun p => { p with position := 0 }) =
      b.placement.map fun p => ({ p with position := 0 } : Placement) := by
    have start := congrArg (Option.map fun s => ({ scope := s, position := 0 } : Placement)) home
    simpa only [owningScope?, Option.map_map, Function.comp_def] using start
  have forms : a.form.unnumbered = b.form.unnumbered := congrArg Symbol.form same
  have sites : a.frame.defSite = b.frame.defSite := congrArg Symbol.defSite same
  rw [unordered, unordered, placements, unnumbered, unnumbered, name_of_frame same, forms,
    show a.defSite = b.defSite from sites]

end Symbol

namespace Table

variable {t u v : Table} {r s : ScopeId} {x y : SymbolId} {a : Symbol} {c d : Scope}
  {l m : List (ScopeId × SymbolId)}

/-- Two tables that differ in the order of members and in slots only. -/
structure UpToOrder (t u : Table) : Prop where
  config : t.config = u.config
  names : t.names = u.names
  types : t.types = u.types
  alike : Alike Scope.content Symbol.unordered t u

/-- `u` is `t` but for the scopes in which the listed symbols now are. -/
structure Adds (t : Table) (l : List (ScopeId × SymbolId)) (u : Table) : Prop where
  config : t.config = u.config
  names : t.names = u.names
  types : t.types = u.types
  alike : Alike Scope.frame Symbol.frame t u
  home : ∀ x s, u.owningScope? x = .ok (some s) ↔
    t.owningScope? x = .ok (some s) ∨ (s, x) ∈ l

/-- The definitions are carried out one after the other, and none is refused. -/
def DefinesAll (t : Table) (l : List (ScopeId × SymbolId)) (u : Table) : Prop :=
  t.run (l.map fun p => .define p.1 p.2) = .ok (l.map fun _ => .ok .done, u)

/-! ### What definitions add -/

theorem frame_placedScope (consistent : t.Consistent) (admits : Admits t s x a c)
    (read : t.scope r = .ok d) : (placedScope s x a r d).frame = d.frame := by
  have kind : (placedScope s x a r d).kind = d.kind := by
    unfold placedScope
    split <;> split <;> rfl
  rw [Scope.frame, Scope.frame, kind, blocks_placedScope, owner?_placedScope]
  by_cases free : d.owner? = none
  · rw [if_pos free, if_pos free, consistent.enclosing_of_free admits read free]
  · rw [if_neg free, if_neg free]

theorem frame_placedSymbol {e : Symbol} : (placedSymbol s x c y e).frame = e.frame := by
  unfold placedSymbol
  split <;> rfl

theorem Consistent.adds_placed (consistent : t.Consistent) (admits : Admits t s x a c) :
    Adds t [(s, x)] (t.placed s x a c) where
  config := config_placed.symm
  names := names_placed.symm
  types := types_placed.symm
  alike := by
    refine .of_reads (by simp) (by simp) (fun r d read => ?_) fun y e read => ?_
    · exact ⟨_, scope_placed read, frame_placedScope consistent admits read⟩
    · exact ⟨_, symbol_placed read, frame_placedSymbol⟩
  home := by
    intro y r
    rw [owningScope?_eq_ok_iff, owningScope?_eq_ok_iff, List.mem_singleton, Prod.mk.injEq]
    constructor
    · rintro ⟨_, read, home⟩
      obtain ⟨e, read₀, rfl⟩ := of_symbol_placed read
      rw [owningScope?_placedSymbol] at home
      by_cases same : x = y
      · rw [if_pos same, Option.some.injEq] at home
        exact .inr ⟨home.symm, same.symm⟩
      · rw [if_neg same] at home
        exact .inl ⟨e, read₀, home⟩
    · rintro (⟨e, read, home⟩ | ⟨rfl, rfl⟩)
      · refine ⟨_, symbol_placed read, ?_⟩
        rw [owningScope?_placedSymbol, if_neg, home]
        rintro rfl
        cases Except.ok.inj (admits.symbol.symm.trans read)
        rw [admits.homeless] at home
        cases home
      · refine ⟨_, symbol_placed admits.symbol, ?_⟩
        rw [owningScope?_placedSymbol, if_pos rfl]

theorem Consistent.adds_define (consistent : t.Consistent)
    (defined : t.define s x = .ok (.ok u)) : Adds t [(s, x)] u := by
  obtain ⟨a, c, admits, assigned⟩ := define_eq_ok defined
  have adds := consistent.adds_placed admits
  obtain ⟨symbols, rfl, same⟩ := assignSlotIn_unnumbered assigned
  have slots : Alike Scope.frame Symbol.unnumbered (t.placed s x a c)
      { t.placed s x a c with symbols } := ⟨rfl, same.symm⟩
  refine ⟨adds.config, adds.names, adds.types, ?_, fun y r => ?_⟩
  · exact adds.alike.trans (slots.weaken (fun _ _ => id) fun a b =>
      congrArg fun e : Symbol => { e with placement := none })
  · have homes := slots.read_symbol (fun a b => congrArg Symbol.owningScope?) y
    exact (Eq.congr_left homes.symm).trans (adds.home y r)

theorem Adds.nil (t : Table) : Adds t [] t :=
  ⟨rfl, rfl, rfl, .refl t, fun x s => by simp⟩

theorem Adds.append (first : Adds t l v) (second : Adds v m u) : Adds t (l ++ m) u where
  config := first.config.trans second.config
  names := first.names.trans second.names
  types := first.types.trans second.types
  alike := first.alike.trans second.alike
  home := by
    intro x s
    rw [second.home, first.home, List.mem_append, or_assoc]

theorem DefinesAll.cons (defines : t.DefinesAll ((s, x) :: l) u) :
    ∃ v, t.define s x = .ok (.ok v) ∧ v.DefinesAll l u := by
  obtain ⟨⟨outcome, v⟩, applied, rest⟩ := Answer.bind_eq_ok_iff.mp defines
  obtain ⟨⟨outcomes, w⟩, ran, done⟩ := Answer.bind_eq_ok_iff.mp rest
  cases done
  obtain ⟨result, defined, shape⟩ := Answer.bind_eq_ok_iff.mp applied
  cases result with
  | error refusal => cases shape
  | ok v => cases shape; exact ⟨v, defined, ran⟩

theorem exists_definesAll_iff : (∃ u, t.DefinesAll l u) ↔
    (t.run (l.map fun p => .define p.1 p.2)).map Prod.fst = .ok (l.map fun _ => .ok .done) := by
  simp only [DefinesAll]
  cases t.run (l.map fun p => .define p.1 p.2) with
  | error e => simp [Except.map]
  | ok result => simp [Except.map, Prod.ext_iff]

/-- What all definitions add, whatever the states between. -/
theorem Consistent.adds (consistent : t.Consistent) (defines : t.DefinesAll l u) :
    u.Consistent ∧ Adds t l u := by
  induction l generalizing t with
  | nil =>
    cases defines
    exact ⟨consistent, .nil _⟩
  | cons p l ih =>
    obtain ⟨v, defined, rest⟩ := defines.cons
    have change : Change (fun _ => True) t v := .define defined fun _ _ => trivial
    obtain ⟨after, adds⟩ := ih (consistent.change change) rest
    exact ⟨after, (consistent.adds_define defined).append adds⟩

/-! ### What the order leaves open -/

/-- Two tables where everything that definitions keep is the same, and every symbol is
defined in the same scope, whenever that was. -/
structure SameHomes (t u : Table) : Prop where
  before : t.Consistent
  after : u.Consistent
  alike : Alike Scope.frame Symbol.frame t u
  home : ∀ x s, t.owningScope? x = .ok (some s) ↔ u.owningScope? x = .ok (some s)

namespace SameHomes

variable {b : Symbol} {n : Name}

theorem symm (same : SameHomes t u) : SameHomes u t :=
  ⟨same.after, same.before, same.alike.symm, fun x s => (same.home x s).symm⟩

theorem owningScope?_eq (same : SameHomes t u) (read : t.symbol x = .ok a)
    (read' : u.symbol x = .ok b) : a.owningScope? = b.owningScope? := by
  refine Option.ext fun s => ?_
  have homes := same.home x s
  rwa [owningScope?, owningScope?, read, read', Answer.ok_bind, Answer.ok_bind,
    Answer.pure_eq_ok, Answer.pure_eq_ok, Except.ok.injEq, Except.ok.injEq] at homes

/-- What consistency tells of a scope by its symbols is told by the same symbols. -/
theorem moved (same : SameHomes t u) (read : t.symbol x = .ok a) :
    ∃ b, u.symbol x = .ok b ∧ b.owningScope? = a.owningScope? ∧ b.name = a.name ∧
      b.form.body? = a.form.body? := by
  obtain ⟨b, read', frame⟩ := same.alike.symbol read
  exact ⟨b, read', (same.owningScope?_eq read read').symm, Symbol.name_of_frame frame,
    Symbol.body?_of_frame frame⟩

theorem mem_members (same : SameHomes t u) (read : t.scope s = .ok c)
    (read' : u.scope s = .ok d) (listed : x ∈ c.members) : x ∈ d.members := by
  obtain ⟨a, symbol, home⟩ := (same.before.mem_members_iff read).mp listed
  obtain ⟨b, symbol', homes, _⟩ := same.moved symbol
  exact (same.after.mem_members_iff read').mpr ⟨b, symbol', homes.trans home⟩

theorem find?_eq_some (same : SameHomes t u) (read : t.scope s = .ok c)
    (read' : u.scope s = .ok d) (found : c.find? n = some x) : d.find? n = some x := by
  obtain ⟨a, symbol, home, name⟩ := (same.before.find?_eq_some_iff read).mp found
  obtain ⟨b, symbol', homes, names, _⟩ := same.moved symbol
  exact (same.after.find?_eq_some_iff read').mpr
    ⟨b, symbol', homes.trans home, names.trans name⟩

/-- A body lies where its owner is defined, and no other scope was moved. -/
theorem enclosing_eq (same : SameHomes t u) (read : t.scope s = .ok c)
    (read' : u.scope s = .ok d) (frame : d.frame = c.frame) : c.enclosing = d.enclosing := by
  rw [Scope.frame, Scope.frame, Prod.mk.injEq, Prod.mk.injEq] at frame
  obtain ⟨kind, _, unowned⟩ := frame
  have owner? : d.owner? = c.owner? := Scope.owner?_eq kind
  cases owner : c.owner? with
  | none =>
    rw [owner?, owner, if_pos rfl, if_pos rfl] at unowned
    exact unowned.symm
  | some x =>
    obtain ⟨a, symbol, body⟩ := same.before.owner read owner
    obtain ⟨c', there, _, inside⟩ := same.before.body symbol body
    cases Except.ok.inj (read.symm.trans there)
    obtain ⟨b, symbol', homes, _, bodies⟩ := same.moved symbol
    obtain ⟨d', there', _, inside'⟩ := same.after.body symbol' (bodies.trans body)
    cases Except.ok.inj (read'.symm.trans there')
    rw [inside, inside', homes]

theorem content_eq (same : SameHomes t u) (read : t.scope s = .ok c)
    (read' : u.scope s = .ok d) (frame : d.frame = c.frame) : d.content = c.content := by
  have kind : d.kind = c.kind := congrArg Prod.fst frame
  have blocks : d.blocks = c.blocks := congrArg (fun frame => frame.2.1) frame
  refine Scope.content_eq_iff.mpr ⟨kind, (same.enclosing_eq read read' frame).symm, ?_, ?_, blocks⟩
  · refine (List.perm_ext_iff_of_nodup (same.after.distinct read')
      (same.before.distinct read)).mpr fun x => ?_
    rw [Array.mem_toList_iff, Array.mem_toList_iff]
    exact ⟨same.symm.mem_members read' read, same.mem_members read read'⟩
  · funext n
    exact Option.ext fun x =>
      ⟨same.symm.find?_eq_some read' read, same.find?_eq_some read read'⟩

theorem unordered (same : SameHomes t u) : Alike Scope.content Symbol.unordered t u := by
  refine .of_reads same.alike.size_scopes same.alike.size_symbols (fun s c read => ?_)
    fun x a read => ?_
  · obtain ⟨d, read', frame⟩ := same.alike.scope read
    exact ⟨d, read', same.content_eq read read' frame⟩
  · obtain ⟨b, read', frame⟩ := same.alike.symbol read
    have home := same.owningScope?_eq read read'
    exact ⟨b, read', Symbol.unordered_of_frame frame home.symm⟩

end SameHomes

/-- The same additions in whatever order lead to the same table but for order. -/
theorem Adds.upToOrder (first : Adds t l u) (second : Adds t m v) (same : ∀ p, p ∈ l ↔ p ∈ m)
    (before : u.Consistent) (after : v.Consistent) : UpToOrder u v where
  config := first.config.symm.trans second.config
  names := first.names.symm.trans second.names
  types := first.types.symm.trans second.types
  alike := by
    have homes : SameHomes u v := by
      refine ⟨before, after, first.alike.symm.trans second.alike, fun x s => ?_⟩
      rw [first.home, second.home, same]
    exact homes.unordered

namespace UpToOrder

theorem aspect (same : UpToOrder t u) : SameAspect t u :=
  same.alike.weaken (fun _ _ => Scope.aspect_of_content) fun _ _ => Symbol.aspect_of_unordered

theorem resolve_eq (same : UpToOrder t u) : t.resolve = u.resolve :=
  same.aspect.resolve_eq same.names

theorem find?_eq (same : UpToOrder t u) : Table.find? t = Table.find? u :=
  same.aspect.find?_eq same.names

theorem resolveMember_eq (same : UpToOrder t u) : t.resolveMember = u.resolveMember :=
  same.aspect.resolveMember_eq same.names

theorem resolveField_eq (same : UpToOrder t u) : t.resolveField = u.resolveField :=
  same.aspect.resolveField_eq same.names

theorem resolveMethod_eq (same : UpToOrder t u) : t.resolveMethod = u.resolveMethod :=
  same.aspect.resolveMethod_eq same.names

/-- A scope lists the same symbols, in whatever order. -/
theorem symbolsOf_perm (same : UpToOrder t u) (given : t.HasScope s) :
    ∃ k k', t.symbolsOf s = .ok k ∧ u.symbolsOf s = .ok k' ∧ k.Perm k' := by
  obtain ⟨c, read⟩ := hasScope_iff.mp given
  obtain ⟨d, read', content⟩ := same.alike.scope read
  exact ⟨_, _, symbolsOf_eq_ok_iff.mpr ⟨c, read, rfl⟩, symbolsOf_eq_ok_iff.mpr ⟨d, read', rfl⟩,
    (Scope.content_eq_iff.mp content).2.2.1.symm⟩

end UpToOrder

/-- Definitions that are all carried out in two orders, from a reachable table, lead to two
tables that no look-up can tell apart: they differ in positions and slots only. -/
theorem Reachable.define_order (reachable : t.Reachable) (perm : l.Perm m)
    (first : t.DefinesAll l u) (second : t.DefinesAll m v) :
    UpToOrder u v ∧ u.enclosingPath = v.enclosingPath ∧ u.resolve = v.resolve ∧
      Table.find? u = Table.find? v ∧ u.superclass = v.superclass ∧
      u.superclassChain = v.superclassChain ∧ u.parentScope? = v.parentScope? ∧
      u.resolveMember = v.resolveMember ∧ u.resolveField = v.resolveField ∧
      u.resolveMethod = v.resolveMethod ∧
      ∀ s, u.HasScope s →
        ∃ k k', u.symbolsOf s = .ok k ∧ v.symbolsOf s = .ok k' ∧ k.Perm k' := by
  obtain ⟨before, adds⟩ := reachable.consistent.adds first
  obtain ⟨after, adds'⟩ := reachable.consistent.adds second
  have same := adds.upToOrder adds' (fun p => perm.mem_iff) before after
  exact ⟨same, same.aspect.enclosingPath_eq, same.resolve_eq, same.find?_eq,
    same.aspect.superclass_eq, same.aspect.superclassChain_eq, same.aspect.parentScope?_eq,
    same.resolveMember_eq, same.resolveField_eq, same.resolveMethod_eq,
    fun s given => same.symbolsOf_perm given⟩

/-- A function and a variable for its body, a class and one that extends it, and a method,
none of them defined. -/
def declaredOnly : Run where
  config := {}
  operations := [
    .declare "f" (.function none), .declare "v" (.var none), .declare "A" (.classType none),
    .declare "B" (.classType (some "A")), .declare "m" (.method none)]
  accepted := by decide +kernel

/-- The function before its variable, and the class before the one that it extends. -/
def outsideFirst : List (ScopeId × SymbolId) :=
  [(.global, ⟨0⟩), (⟨2⟩, ⟨1⟩), (.global, ⟨3⟩), (.global, ⟨2⟩), (⟨4⟩, ⟨4⟩)]

def insideFirst : List (ScopeId × SymbolId) :=
  [(⟨2⟩, ⟨1⟩), (.global, ⟨2⟩), (.global, ⟨3⟩), (⟨4⟩, ⟨4⟩), (.global, ⟨0⟩)]

theorem declaredOnly_define_order : ∃ u v, declaredOnly.final.DefinesAll outsideFirst u ∧
    declaredOnly.final.DefinesAll insideFirst v ∧ UpToOrder u v ∧
    u.enclosingPath = v.enclosingPath ∧ u.resolve = v.resolve ∧ u.superclass = v.superclass ∧
    u.resolveMethod = v.resolveMethod := by
  have reachable := declaredOnly.reachable declaredOnly.operations.length
  obtain ⟨u, first⟩ : ∃ u, declaredOnly.final.DefinesAll outsideFirst u :=
    exists_definesAll_iff.mpr (by decide +kernel)
  obtain ⟨v, second⟩ : ∃ v, declaredOnly.final.DefinesAll insideFirst v :=
    exists_definesAll_iff.mpr (by decide +kernel)
  obtain ⟨same, paths, resolves, _, supers, _, _, _, _, methods, _⟩ :=
    Reachable.define_order reachable (by decide) first second
  exact ⟨u, v, first, second, same, paths, resolves, supers, methods⟩

end Table

end Scoping
