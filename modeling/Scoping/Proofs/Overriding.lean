import Scoping.Proofs.Agreement
import Scoping.Proofs.Unrelated
import Scoping.Proofs.WrittenOnce

/-!
# Slots of overrides

A method that is defined in a class stands in the place of the one of its name in the list
of the superclass, and gets the slot of the method of its name that is looked up in the
superclass. These are the same method, unless a member of another kind is nearer: then
nothing is looked up, and the method gets a new slot in spite of the place where it stands.

The superclass and its chain are looked up when the method is a member already. They are those
of before, because a class asks only scopes less deep than its body for its superclass, and
the body is where the name of the method was added.
-/

namespace Scoping

namespace Table

variable {t u w : Table} {C D P m x y : SymbolId} {b s : ScopeId} {d : Nat} {n : Name}
  {k : Kind} {l ms : List SymbolId} {path : List ScopeId} {text : String} {slot : Nat}

/-! ### A new member and the superclasses of its class -/

/-- What a class depends on lies no deeper. -/
theorem Consistent.lies_of_depends (consistent : t.Consistent) (lies : t.Lies d C)
    (depends : t.Depends C D) : t.Lies d D := by
  induction depends with
  | refl => exact lies
  | @tail D E _ next ih =>
    rcases next with above | asks
    · obtain ⟨r, known, stays⟩ := (consistent.settles_depth d).answers ih
      rw [above, Except.ok.injEq] at known
      exact stays E known.symm
    · obtain ⟨e, rfl⟩ : ∃ e, d = e + 1 := ⟨d - 1, by have := ih.pos; omega⟩
      exact (asks.lies consistent ih).mono (Nat.le_succ e)

/-- A superclass is found by its name in a scope that is less deep than the class. -/
theorem Consistent.length_of_seeks (consistent : t.Consistent) (lies : t.Lies d D)
    (seeks : t.Seeks D n s) (found : t.resolveName s n = .ok (some x))
    (home : t.owningScope? x = .ok (some b)) (walk : Walk t.enclosing? b path) :
    path.length < d := by
  obtain ⟨e, rfl⟩ : ∃ e, d = e + 1 := ⟨d - 1, by have := lies.pos; omega⟩
  obtain ⟨a, symbol, _, around⟩ := seeks
  obtain ⟨outwards, walk', short⟩ := lies.around consistent symbol around
  obtain ⟨r, found', sound⟩ := (consistent.settles_depth e).lookupWithin (n := n) consistent walk'
    (consistent.meets walk' short) (length_walk_le_outwardSteps walk')
  cases Except.ok.inj (found.symm.trans found')
  obtain ⟨q, c, read, there, place⟩ := sound x rfl
  obtain ⟨a', symbol', home', _⟩ := (consistent.find?_eq_some_iff read).mp there
  rw [owningScope?_eq_ok_iff.mpr ⟨a', symbol', home'⟩] at home
  cases home
  rcases place with member | ⟨E, ⟨body, path', has, walk'', short'⟩, has'⟩
  · have := walk'.length_le_of_mem member walk
    omega
  · cases has.symm.trans has'
    rw [walk.unique walk'']
    omega

namespace DefinedAlone

/-- Outside of the body the ways outwards are what they were. -/
theorem walk (alone : DefinedAlone t u x) (outside : t.Outside x s)
    (walk : Walk t.enclosing? s path) : Walk u.enclosing? s path := by
  induction walk with
  | @stop s ends =>
    obtain ⟨c, read, _⟩ := enclosing?_eq_ok_iff.mp ends
    obtain ⟨c', read'⟩ := hasScope_iff.mp (alone.hasScope (hasScope_iff.mpr ⟨c, read⟩))
    have goes := enclosing?_of_scope read'
    cases around : c'.enclosing with
    | none => exact .stop (around ▸ goes)
    | some o => exact absurd (around ▸ goes) (alone.not_enclosed outside (.stop ends) rfl)
  | step goes _ ih => exact .step (alone.enclosing?_eq goes) (ih (outside.outward goes))

theorem lies (alone : DefinedAlone t u x) (apart : t.Apart x D) (lies : t.Lies d D) :
    u.Lies d D := by
  have given := lies.given
  obtain ⟨body, path, has, walk, short⟩ := lies
  exact ⟨body, path, (alone.body?_eq given).trans has, alone.walk (apart body has) walk, short⟩

/-- A new member of a class is no superclass that the class or a class above looks for. -/
theorem steady_of_member (alone : DefinedAlone t u x) (body : t.body? C = .ok (some b))
    (home : u.owningScope? x = .ok (some b)) (apart : t.Apart x C) : Steady t u C := by
  obtain ⟨a, symbol, has⟩ := body?_eq_ok_iff.mp body
  obtain ⟨c, scope, _⟩ := alone.before.body symbol has
  obtain ⟨path, walk⟩ := alone.before.rooted (hasScope_iff.mpr ⟨c, scope⟩)
  intro D depends affected
  have lies : t.Lies path.length D :=
    alone.before.lies_of_depends ⟨b, path, body, walk, Nat.le_refl _⟩ depends
  have apart' := alone.before.apart_of_depends alone.undefined apart depends
  obtain ⟨n, s, y, seeks, found, since⟩ := affected.resolve_right (alone.not_attached apart')
  cases alone.only y since
  have short := alone.after.length_of_seeks (alone.lies apart' lies) (alone.toLater.seeks seeks)
    found home (alone.walk (apart b body) walk)
  exact absurd short (Nat.lt_irrefl _)

/-- A class that gets a new member still has its superclass, and that has its chain. -/
theorem chain_of_member (alone : DefinedAlone t u x) (body : t.body? C = .ok (some b))
    (home : u.owningScope? x = .ok (some b)) (apart : t.Apart x C)
    (above : t.superclass C = .ok (some P)) (chain : t.chain P = .ok l) :
    u.superclass C = .ok (some P) ∧ u.chain P = .ok l := by
  have given := hasSymbol_of_superclassWithin above
  have steady := alone.steady_of_member body home apart
  have apart' := alone.before.apart_of_superclass alone.undefined apart above
  obtain ⟨supers, known, _, still⟩ :=
    alone.toLater.chain_of_steady given (fun _ _ => alone.still given apart) steady
  obtain ⟨_, rfl, _⟩ := chain_eq_ok known
  have given' := (alone.before.isAggregate_superclass above).hasSymbol
  obtain ⟨supers', known', chain', _⟩ := alone.toLater.chain_of_steady given'
    (fun _ _ => alone.still given' apart') (steady.of_depends (.single (.inl above)))
  cases Except.ok.inj (chain.symm.trans known')
  exact ⟨(still C List.mem_cons_self).trans above, chain'⟩

end DefinedAlone

/-! ### The slot of a new method -/

theorem nextMethodSlot_eq (given : t.HasSymbol C) :
    t.nextMethodSlot C = (t.nextAt .method C).elim (t.methodBase C) .ok := by
  have next := nextSlot_eq (k := .method) (.inr rfl) given
  cases counted : t.nextAt .method C with
  | none =>
    rw [counted] at next
    exact next
  | some slot =>
    rw [counted] at next
    exact next

namespace Joins

variable (joins : Joins t w u k C x n slot) (above : w.superclass C = .ok (some P))
  (chain : w.chain P = .ok l) (outside : C ∉ l)
include joins above chain outside

/-- A new method overrides what was found in the superclass before. -/
theorem overriddenSlot? : w.overriddenSlot? C n =
    .ok (((l.findSome? (t.memberAt n)).filter fun m => t.kindAt m = some .method).bind
      t.slotAt) := by
  have members : l.map (w.memberAt n) = l.map (t.memberAt n) := by
    refine List.map_congr_left fun E inside => ?_
    have other : E ≠ C := by
      rintro rfl
      exact outside inside
    simp only [memberAt, joins.contents_between other, joins.names_between]
  have found : l.findSome? (w.memberAt n) = l.findSome? (t.memberAt n) := by
    have listed := congrArg (List.findSome? id) members
    rwa [List.findSome?_map, List.findSome?_map] at listed
  have slots : w.slotAt = t.slotAt := funext joins.slotBefore
  rw [joins.consistent.overriddenSlot?_of_chain above chain, found, slots]
  simp only [joins.kinds_between]

/-- A new slot is the one that would have been next before. -/
theorem nextMethodSlot (consistent : t.Consistent) (above' : t.superclass C = .ok (some P))
    (chain' : t.chain P = .ok l) : w.nextMethodSlot C = t.nextMethodSlot C := by
  have given := hasSymbol_of_superclassWithin above
  have given' := hasSymbol_of_superclassWithin above'
  have base : w.methodBase C = t.methodBase C := by
    have slots : w.slotAt = t.slotAt := funext joins.slotBefore
    have listed := joins.consistent.visibleMembers
      (joins.consistent.isAggregate_superclass above).hasSymbol chain .method
    have listed' := consistent.visibleMembers
      (consistent.isAggregate_superclass above').hasSymbol chain' .method
    rw [joins.consistent.methodBase above listed, consistent.methodBase above' listed',
      joins.layered_between outside, slots]
  calc w.nextMethodSlot C = (w.nextAt .method C).elim (w.methodBase C) .ok :=
        nextMethodSlot_eq given
    _ = (t.nextAt .method C).elim (t.methodBase C) .ok := by rw [joins.nextBefore, base]
    _ = t.nextMethodSlot C := (nextMethodSlot_eq given').symm

end Joins

/-- The method of a name that is looked up along the classes. -/
theorem Named.nearestCalled_eq (named : t.Named) (called : t.symbolName m = .ok text)
    (name : t.nameAt m = some n) (l : List SymbolId) :
    t.nearestCalled text l = l.findSome? (t.memberAt n) := by
  obtain ⟨a, symbol, reads⟩ := named.symbolName_eq_ok_iff.mp called
  rw [nameAt_of_symbol symbol, Option.some.injEq] at name
  rw [nearestCalled, (Names.find?_eq_some_iff named.sound).mpr (name ▸ reads), Option.bind_some]

/-- While a member is defined in the body of a class, the superclass of the class and the chain
of that are found as they were before. -/
theorem Reachable.joins_below (reachable : t.Reachable) (above : t.superclass C = .ok (some P))
    (chain : t.chain P = .ok l) (body : t.body? C = .ok (some b))
    (kind : t.kind m = .ok k) (slotted : k.Slotted) (defined : t.define b m = .ok (.ok u)) :
    ∃ w n slot, Joins t w u k C m n slot ∧ w.superclass C = .ok (some P) ∧
      w.chain P = .ok l := by
  have consistent := reachable.consistent
  have alone := reachable.definedAlone defined
  obtain ⟨a, c, admits, _⟩ := define_eq_ok defined
  have owned : c.owner? = some C := by
    obtain ⟨e, symbol, has⟩ := body?_eq_ok_iff.mp body
    obtain ⟨d, scope, owner, _⟩ := consistent.body symbol has
    cases Except.ok.inj (admits.scope.symm.trans scope)
    exact owner
  have apart : t.Apart m C := by
    intro body' has inner path within walked inside
    cases has.symm.trans body
    obtain ⟨e, symbol, has'⟩ := body?_eq_ok_iff.mp within
    cases Except.ok.inj (admits.symbol.symm.trans symbol)
    obtain ⟨path', walked', free⟩ := admits.outside inner has'
    cases Except.ok.inj (walked.symm.trans walked')
    exact free inside
  have home : u.owningScope? m = .ok (some b) :=
    ((consistent.adds_define defined).home m b).mpr (.inr (List.mem_singleton_self (b, m)))
  obtain rfl : a.kind = k := by
    rw [kind_of_symbol admits.symbol] at kind
    exact Except.ok.inj kind
  obtain ⟨w, slot, joins⟩ := consistent.joins defined admits.scope owned
    (consistent.isAggregate_of_superclass above) admits.symbol slotted
  obtain ⟨above', chain'⟩ := alone.chain_of_member body home apart above chain
  rw [← joins.same.aspect.superclass_eq] at above'
  rw [← joins.same.aspect.chain_eq] at chain'
  exact ⟨w, a.name, slot, joins, above', chain'⟩

/-- In every reachable table, when a method is defined in a class whose superclass shows a
method of that name, it gets the slot of that method, unless a class nearer than the one
that defines it has a member of that name of another kind: then the method gets the next new
slot of its class. -/
theorem Reachable.override_slot (reachable : t.Reachable)
    (above : t.superclass C = .ok (some P)) (chain : t.chain P = .ok l) (outside : C ∉ l)
    (body : t.body? C = .ok (some b)) (method : t.kind m = .ok .method)
    (defined : t.define b m = .ok (.ok u)) (shown : t.methods P = .ok ms) (listed : y ∈ ms)
    (called : t.symbolName m = .ok text) (called' : t.symbolName y = .ok text) :
    ∃ before D after v slot, l = before ++ D :: after ∧ D ∉ before ∧ t.Member D y .method ∧
      t.slot? y = .ok (some v) ∧ u.slot? y = .ok (some v) ∧ u.slot? m = .ok (some slot) ∧
      (¬ t.Hides .method text before → slot = v) ∧
      (t.Hides .method text before → t.nextMethodSlot C = .ok slot) := by
  have consistent := reachable.consistent
  have named := reachable.named
  obtain ⟨w, n, slot, joins, above', chain'⟩ :=
    reachable.joins_below above chain body method (.inr rfl) defined
  have aggregate := consistent.isAggregate_superclass above
  -- the listed method, and where it is found
  obtain ⟨l', known, rfl⟩ := consistent.layered_of_visibleMembers shown
  cases Except.ok.inj (chain.symm.trans known)
  obtain ⟨before, D, after, split, further, member, hidden, free⟩ :=
    (consistent.agrees named aggregate chain .method text).entry y listed called'
  cases Except.ok.inj (chain.symm.trans split)
  have own : y ∈ t.own .method D := consistent.mem_own_iff.mpr
    ⟨consistent.isAggregate_of_mem_chain aggregate chain D (by simp), member⟩
  obtain ⟨v, taken⟩ := reachable.slotAt_isSome_iff.mpr ⟨D, .method, .inr rfl, own⟩
  have apart : m ≠ y := by
    rintro rfl
    exact joins.undefined D (mem_own.mp own).1
  -- the slot that it hands on
  have overridden := joins.overriddenSlot? above' chain' outside
  rw [← named.nearestCalled_eq called joins.name] at overridden
  refine ⟨before, D, after, v, slot, rfl, further, member, slot?_eq_ok_iff.mpr taken,
    ?_, ?_, ?_, ?_⟩
  · rw [slot?_eq_ok_iff, joins.slots, if_neg apart, taken]
  · rw [slot?_eq_ok_iff, joins.slots, if_pos rfl]
  · intro unhidden
    rw [free unhidden, Option.bind_some, taken] at overridden
    rcases joins.due with ⟨_, due, _⟩ | ⟨due, _⟩
    · exact Option.some.inj (Except.ok.inj (due.symm.trans overridden))
    · cases (due rfl).symm.trans overridden
  · intro hides
    rw [hidden hides, Option.bind_none] at overridden
    rcases joins.due with ⟨_, due, _⟩ | ⟨_, due, _⟩
    · cases due.symm.trans overridden
    · rw [← joins.nextMethodSlot above' chain' outside consistent above chain]
      exact due

/-- A class with a method, a class below it with a field of that name, and a third class below
that gets a method of the name. -/
def obscured : Run where
  config := {}
  operations := [
    .declare "A" (.classType none), .define .global ⟨0⟩,
    .declare "m" (.method none), .define ⟨2⟩ ⟨1⟩,
    .declare "B" (.classType (some "A")), .define .global ⟨2⟩,
    .declare "m" (.field none), .define ⟨4⟩ ⟨3⟩,
    .declare "C" (.classType (some "B")), .define .global ⟨4⟩,
    .declare "m" (.method none), .define ⟨5⟩ ⟨5⟩]
  accepted := by decide +kernel

/-- The method that the superclass shows is listed behind the field, and its slot is not
taken over. -/
theorem obscured_slot_not_reused : (obscured.state 11).Reachable ∧
    (obscured.state 11).methods ⟨2⟩ = .ok [⟨1⟩] ∧
    (obscured.state 11).define ⟨5⟩ ⟨5⟩ = .ok (.ok obscured.final) ∧
    obscured.final.slot? ⟨1⟩ = .ok (some 0) ∧ obscured.final.slot? ⟨5⟩ = .ok (some 1) ∧
    ¬ ∀ (t u : Table) (C P m y : SymbolId) (b : ScopeId) (l ms : List SymbolId) (text : String),
      t.Reachable → t.superclass C = .ok (some P) → t.chain P = .ok l → C ∉ l →
      t.body? C = .ok (some b) → t.kind m = .ok .method → t.define b m = .ok (.ok u) →
      t.methods P = .ok ms → y ∈ ms → t.symbolName m = .ok text → t.symbolName y = .ok text →
      u.slot? m = u.slot? y := by
  have reachable := obscured.reachable 11
  have shown : (obscured.state 11).methods ⟨2⟩ = .ok [⟨1⟩] := by decide +kernel
  have defines : obscured.Defines 11 .method ⟨4⟩ ⟨5⟩ := Run.defines_iff.mpr (by decide +kernel)
  obtain ⟨b, _, nth, defined, _⟩ := defines
  cases nth
  have slot : obscured.final.slot? ⟨1⟩ = .ok (some 0) := by decide +kernel
  have slot' : obscured.final.slot? ⟨5⟩ = .ok (some 1) := by decide +kernel
  refine ⟨reachable, shown, defined, slot, slot', fun reuses => ?_⟩
  have same := reuses _ _ ⟨4⟩ ⟨2⟩ ⟨5⟩ ⟨1⟩ ⟨5⟩ [⟨2⟩, ⟨0⟩] [⟨1⟩] "m" reachable
    (by decide +kernel) (by decide +kernel) (by decide) (by decide +kernel) (by decide +kernel)
    defined shown (by decide) (by decide +kernel) (by decide +kernel)
  exact absurd (slot'.symm.trans (same.trans slot)) (by decide)

/-- Two levels up, with nothing else of that name in between, the slot is taken over. -/
theorem hierarchy_override_slot : (Run.hierarchy.state 21).Reachable ∧
    (Run.hierarchy.state 21).define ⟨8⟩ ⟨10⟩ = .ok (.ok Run.hierarchy.final) ∧
    (Run.hierarchy.state 21).methods ⟨4⟩ = .ok [⟨1⟩, ⟨6⟩, ⟨5⟩] ∧
    Run.hierarchy.final.slot? ⟨10⟩ = Run.hierarchy.final.slot? ⟨1⟩ := by
  have reachable := Run.hierarchy.reachable 21
  have above : (Run.hierarchy.state 21).superclass ⟨7⟩ = .ok (some ⟨4⟩) := by decide +kernel
  have chain : (Run.hierarchy.state 21).chain ⟨4⟩ = .ok [⟨4⟩, ⟨0⟩] := by decide +kernel
  have shown : (Run.hierarchy.state 21).methods ⟨4⟩ = .ok [⟨1⟩, ⟨6⟩, ⟨5⟩] := by decide +kernel
  have called : (Run.hierarchy.state 21).symbolName ⟨10⟩ = .ok "m" := by decide +kernel
  have called' : (Run.hierarchy.state 21).symbolName ⟨1⟩ = .ok "m" := by decide +kernel
  have defines : Run.hierarchy.Defines 21 .method ⟨7⟩ ⟨10⟩ :=
    Run.defines_iff.mpr (by decide +kernel)
  obtain ⟨b, _, nth, defined, _⟩ := defines
  cases nth
  obtain ⟨before, _, _, v, slot, _, _, _, _, slot', slot'', free, _⟩ :=
    Reachable.override_slot reachable above chain (by decide) (by decide +kernel)
      (by decide +kernel) defined shown (by decide) called called'
  have methods : ∀ y ∈ (Run.hierarchy.state 21).everySymbol,
      (Run.hierarchy.state 21).symbolName y = .ok "m" →
        (Run.hierarchy.state 21).kind y = .ok .method := by decide +kernel
  have unhidden : ¬ (Run.hierarchy.state 21).Hides .method "m" before := by
    rintro ⟨E, _, y, j, ⟨_, _, _, kind⟩, other, same⟩
    obtain ⟨a, symbol, _⟩ := Answer.bind_eq_ok_iff.mp kind
    have method := methods y (mem_everySymbol.mpr (hasSymbol_iff.mpr ⟨a, symbol⟩)) same
    exact other (Except.ok.inj (kind.symm.trans method))
  obtain rfl := free unhidden
  exact ⟨reachable, defined, shown, slot''.trans slot'.symm⟩

end Table

end Scoping
