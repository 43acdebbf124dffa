import Scoping.Proofs.Dependence
import Scoping.Proofs.Dispatch

/-!
# Superclasses that change

A method gets its slot when all superclasses of the class are there. Superclasses are looked
up afresh whenever they are asked for, and so the class may have others later on: a symbol
that is defined later may take the name of one, or a class around may inherit more than it
did. Without such an event the superclasses stay as they are.
-/

namespace Scoping

namespace Table

variable {t u : Table} {C D P m x : SymbolId} {l seen : List SymbolId} {n : Name}
  {s : ScopeId} {up : Ancestry} {steps : Nat}

/-- Neighbours on a chain are class and superclass. -/
theorem up_of_neighbours (found : ancestorsWithin up steps seen x = .ok l)
    (neighbours : [D, P] <:+: x :: l) : up D = .ok (some P) := by
  induction steps generalizing x seen l with
  | zero => cases found
  | succ steps ih =>
    obtain ⟨r, known, found⟩ := Answer.bind_eq_ok_iff.mp found
    cases r with
    | none =>
      cases found
      have := neighbours.length_le
      simp at this
    | some above =>
      simp only at found
      split at found
      · cases found
        have := neighbours.length_le
        simp at this
      · obtain ⟨rest, further, shape⟩ := Answer.bind_eq_ok_iff.mp found
        cases shape
        rcases List.infix_cons_iff.mp neighbours with first | inner
        · obtain ⟨rfl, second⟩ := List.cons_prefix_cons.mp first
          obtain ⟨rfl, _⟩ := List.cons_prefix_cons.mp second
          exact known
        · exact ih further inner

theorem superclass_of_neighbours (chain : t.chain C = .ok l) (neighbours : [D, P] <:+: l) :
    t.superclass D = .ok (some P) := by
  obtain ⟨supers, found, shape⟩ := Answer.bind_eq_ok_iff.mp chain
  cases shape
  exact up_of_neighbours found neighbours

/-- When a class had no place as it got a method, it names no superclass. -/
theorem Reachable.placed_or_unnamed (reachable : t.Reachable) (aggregate : t.IsAggregate C)
    (method : t.Member C m .method) :
    (∃ s, t.owningScope? C = .ok (some s)) ∨ t.superclassAt C = none := by
  have member := reachable.consistent.mem_own_iff.mpr ⟨aggregate, method⟩
  obtain ⟨r, rfl⟩ := reachable.exists_run
  obtain ⟨i, before, defines⟩ := Run.defined_of_mem_own (.inr rfl) member
  obtain ⟨w, n, slot, joins⟩ := defines.joins (.inr rfl)
  have keeps := Keeps.steps (r.consistent i) (r.steps_of_le (Nat.le_of_lt before))
  by_cases placed : ∃ s, (r.state i).owningScope? C = .ok (some s)
  · obtain ⟨s, home⟩ := placed
    exact .inl ⟨s, keeps.owningScope?_eq home⟩
  · right
    have idle : ∀ n s, ¬ (r.state i).Seeks C n s := by
      rintro n s ⟨a, symbol, _, home⟩
      exact placed ⟨s, owningScope?_eq_ok_iff.mpr ⟨a, symbol, home⟩⟩
    have given : (r.state i).HasSymbol C := by
      obtain ⟨_, _, _, _, _, read, _⟩ := defines
      obtain ⟨a, symbol, _⟩ := Answer.bind_eq_ok_iff.mp read
      exact hasSymbol_iff.mpr ⟨a, symbol⟩
    have none := (r.consistent i).superclass_of_idle given idle
    have lineage : (r.state i).Lineage C [C] := ⟨chain_of_superclass_none none, none⟩
    have unnamed := lineage.unnamed (joins.rooted (by simp [slotNeedsSuperclass]))
    exact ((r.grows (Nat.le_of_lt before)).superclass given).trans unnamed

/-- A class with a method looks for its superclass where it did. -/
theorem Reachable.seeks_of_method (reachable : t.Reachable) (aggregate : t.IsAggregate C)
    (method : t.Member C m .method) (later : Later t u) (seeks : u.Seeks C n s) :
    t.Seeks C n s := by
  obtain ⟨a, symbol, _⟩ := id aggregate
  rcases reachable.placed_or_unnamed aggregate method with ⟨q, home⟩ | unnamed
  · exact later.of_seeks (hasSymbol_iff.mpr ⟨a, symbol⟩) (fun since => since.2 q home) seeks
  · obtain ⟨b, symbol', name, _⟩ := seeks
    obtain ⟨b', read, kept⟩ := later.symbol symbol
    cases Except.ok.inj (symbol'.symm.trans read)
    rw [superclassAt, symbols_of_symbol symbol, Option.bind_some, ← kept.superclass, name]
      at unnamed
    cases unnamed

/-- The name of a superclass is now that of a symbol that is none of the old ones, so the
superclass is another. -/
theorem Later.superclass_of_taken (later : Later t u) (taken : Taken t u D)
    (above : t.superclass D = .ok (some P)) : u.superclass D ≠ .ok (some P) := by
  obtain ⟨n, s, x, seeks, found, since⟩ := taken
  intro above'
  obtain ⟨n', s', seeks', found'⟩ := later.after.exists_seeks above'
  obtain ⟨a, symbol, name, home⟩ := later.seeks seeks
  obtain ⟨a', symbol', name', home'⟩ := seeks'
  cases Except.ok.inj (symbol.symm.trans symbol')
  cases name.symm.trans name'
  cases home.symm.trans home'
  cases found.symm.trans found'
  obtain ⟨q, place⟩ := later.before.placed_of_superclass above
  exact since.2 q place

/-- Once a class has a method, its superclasses stay as they are unless a class that they
depend on has another superclass than before, because its name was taken, or was not found
and is looked up further out now. Where a superclass gives way to a symbol that took its
name, the superclasses of the class are others. -/
theorem Reachable.reparenting (reachable : t.Reachable) (kind : t.kind C = .ok .classType)
    (method : t.Member C m .method) (steps : Steps t u) : ∃ l l',
    t.superclassChain C = .ok l ∧ u.superclassChain C = .ok l' ∧
    (l' ≠ l → ∃ D, t.Depends C D ∧ u.superclass D ≠ t.superclass D ∧
      (Taken t u D ∨ Attached t u D)) ∧
    ∀ D P, [D, P] <:+: C :: l → Taken t u D → l' ≠ l := by
  have later := reachable.consistent.later steps
  obtain ⟨a, symbol, shape⟩ := Answer.bind_eq_ok_iff.mp kind
  have aggregate : t.IsAggregate C := ⟨a, symbol, by rw [Except.ok.inj shape]; rfl⟩
  have given : t.HasSymbol C := hasSymbol_iff.mpr ⟨a, symbol⟩
  obtain ⟨chain, known, _⟩ := later.before.settles.chainVia given
  obtain ⟨chain', known', _⟩ := later.after.settles.chainVia (later.hasSymbol given)
  obtain ⟨l, _, shape⟩ := Answer.bind_eq_ok_iff.mp known
  obtain ⟨l', _, shape'⟩ := Answer.bind_eq_ok_iff.mp known'
  cases shape
  cases shape'
  refine ⟨l, l', by rw [superclassChain, Table.chain, known]; rfl,
    by rw [superclassChain, Table.chain, known']; rfl, fun differ => ?_, ?_⟩
  · by_contra unaffected
    have steady : Steady t u C := by
      intro D depends affected
      by_contra differs
      exact unaffected ⟨D, depends, differs, affected⟩
    obtain ⟨chain, same, same', _⟩ := later.chain_of_steady given
      (fun n s => reachable.seeks_of_method aggregate method later) steady
    cases known.symm.trans same
    cases known'.symm.trans same'
    exact differ rfl
  · rintro D P neighbours taken rfl
    exact later.superclass_of_taken taken (superclass_of_neighbours known neighbours)
      (superclass_of_neighbours known' neighbours)

/-- A class in a function gets a method, and then a class of its superclass's name is
defined in the function, too. -/
def nearer : Run where
  config := {}
  operations := [
    .declare "A" (.classType none), .define .global ⟨0⟩,
    .declare "f" (.function none), .define .global ⟨1⟩,
    .declare "B" (.classType (some "A")), .define ⟨3⟩ ⟨2⟩,
    .declare "m" (.method none), .define ⟨4⟩ ⟨3⟩,
    .declare "A" (.classType none), .define ⟨3⟩ ⟨4⟩]
  accepted := by decide +kernel

theorem nearer_reparents : (nearer.state 8).Reachable ∧ (nearer.state 8).Member ⟨2⟩ ⟨3⟩ .method ∧
    Steps (nearer.state 8) nearer.final ∧
    (nearer.state 8).superclassChain ⟨2⟩ = .ok [⟨0⟩] ∧
    nearer.final.superclassChain ⟨2⟩ = .ok [⟨4⟩] ∧
    ¬ ∀ (t u : Table) (C m : SymbolId), t.Reachable → t.kind C = .ok .classType →
      t.Member C m .method → Steps t u → u.superclassChain C = t.superclassChain C := by
  have reachable := nearer.reachable 8
  have method : (nearer.state 8).Member ⟨2⟩ ⟨3⟩ .method := by decide +kernel
  have steps : Steps (nearer.state 8) nearer.final := nearer.steps_of_le (by decide)
  have before : (nearer.state 8).superclassChain ⟨2⟩ = .ok [⟨0⟩] := by decide +kernel
  have after : nearer.final.superclassChain ⟨2⟩ = .ok [⟨4⟩] := by decide +kernel
  refine ⟨reachable, method, steps, before, after, fun stays => ?_⟩
  have same := stays _ _ ⟨2⟩ ⟨3⟩ reachable (by decide +kernel) method steps
  rw [before, after] at same
  revert same
  decide

theorem nearer_reparenting : (nearer.state 8).Reachable ∧
    (nearer.state 8).kind ⟨2⟩ = .ok .classType ∧ (nearer.state 8).Member ⟨2⟩ ⟨3⟩ .method ∧
    Steps (nearer.state 8) nearer.final ∧ ∃ D, (nearer.state 8).Depends ⟨2⟩ D ∧
      nearer.final.superclass D ≠ (nearer.state 8).superclass D ∧
      (Taken (nearer.state 8) nearer.final D ∨ Attached (nearer.state 8) nearer.final D) := by
  have reachable := nearer.reachable 8
  have kind : (nearer.state 8).kind ⟨2⟩ = .ok .classType := by decide +kernel
  have method : (nearer.state 8).Member ⟨2⟩ ⟨3⟩ .method := by decide +kernel
  have steps : Steps (nearer.state 8) nearer.final := nearer.steps_of_le (by decide)
  obtain ⟨l, l', before, after, changes, _⟩ := Reachable.reparenting reachable kind method steps
  have before' : (nearer.state 8).superclassChain ⟨2⟩ = .ok [⟨0⟩] := by decide +kernel
  have after' : nearer.final.superclassChain ⟨2⟩ = .ok [⟨4⟩] := by decide +kernel
  cases before.symm.trans before'
  cases after.symm.trans after'
  exact ⟨reachable, kind, method, steps, changes (by decide)⟩

/-- A class in a class whose superclass is not found, all in a class that is defined last. -/
def adopted : Run where
  config := {}
  operations := [
    .declare "Outer" (.classType none),
    .declare "A" (.classType none), .define ⟨2⟩ ⟨1⟩,
    .declare "E" (.classType (some "Base")), .define ⟨2⟩ ⟨2⟩,
    .declare "B" (.classType (some "A")), .define ⟨4⟩ ⟨3⟩,
    .declare "m" (.method none), .define ⟨5⟩ ⟨4⟩,
    .declare "Base" (.classType none), .define .global ⟨5⟩,
    .declare "A" (.classType none), .define ⟨7⟩ ⟨6⟩,
    .define .global ⟨0⟩]
  accepted := by decide +kernel

/-- No name is taken by the last operation, but the class in between comes to inherit. -/
example : (adopted.state 13).superclassChain ⟨3⟩ = .ok [⟨1⟩] ∧
    adopted.final.superclassChain ⟨3⟩ = .ok [⟨6⟩] := by
  decide +kernel

end Table

end Scoping
