import Scoping.Proofs.Membership
import Scoping.Proofs.Visible

/-!
# Resolution as a search

For every scope on the way outwards some scopes are asked: the scope itself, and for the
body of a struct or class the bodies of its superclasses after it. A name resolves to what
the first of all these lists under it. So every member that is inherited comes before the
names around the class, and a scope that lies around a superclass only is asked for no
reason but as a superclass's body itself.
-/

namespace Scoping

namespace Table

variable {t : Table} {s o q b : ScopeId} {x y m C P : SymbolId} {a : Symbol} {c : Scope}
  {n : Name} {text : String} {path asked l : List ScopeId} {supers : List SymbolId}

/-- The scopes that are asked for one scope, in their order. -/
def askedFor (t : Table) (s : ScopeId) : Answer (List ScopeId) := do
  match ← t.scopeOwner? s with
  | none => return [s]
  | some owner =>
    if (← t.kind owner).isAggregate then return (← (← t.chain owner).mapM t.body?).filterMap id
    else return [s]

/-- The scopes that are asked from a scope on, in their order. -/
def searchList (t : Table) (s : ScopeId) : Answer (List ScopeId) :=
  return (← (← t.enclosingPath s).mapM t.askedFor).flatten

def askedAt (t : Table) (s : ScopeId) : List ScopeId := (t.askedFor s).toOption.getD []

/-- `q` is the body of a superclass of the class whose body `o` is. -/
def Inherits (t : Table) (o q : ScopeId) : Prop := ∃ C supers P, t.scopeOwner? o = .ok (some C) ∧
  t.superclassChain C = .ok supers ∧ P ∈ supers ∧ t.body? P = .ok (some q)

/-- What a single scope finds by a string. -/
def foundAt (t : Table) (text : String) (s : ScopeId) : Option SymbolId :=
  (t.find? s text).toOption.join

theorem foundAt_of_scope (read : t.scope s = .ok c) :
    t.foundAt text s = (t.names.find? text).bind c.find? := by
  rw [foundAt, find?_of_scope read]
  rfl

/-- A string that names nothing is found nowhere. -/
theorem findSome?_of_unnamed (unnamed : t.names.find? text = none) (l : List ScopeId) :
    l.findSome? (t.foundAt text) = none := by
  refine List.findSome?_eq_none_iff.mpr fun q _ => ?_
  rw [foundAt, find?, unnamed]
  rfl

namespace Consistent

theorem foundAt_eq_some_iff (consistent : t.Consistent) (named : t.Named) :
    t.foundAt text s = some x ↔ t.Lists s text x := by
  constructor
  · intro found
    cases known : t.find? s text with
    | error e =>
      rw [foundAt, known] at found
      cases found
    | ok found' =>
      rw [foundAt, known] at found
      obtain rfl : found' = some x := found
      have given : t.HasScope s := by
        rw [find?] at known
        cases name : t.names.find? text with
        | none =>
          rw [name] at known
          cases known
        | some n =>
          rw [name] at known
          obtain ⟨c, read, _⟩ := Answer.bind_eq_ok_iff.mp known
          exact hasScope_iff.mpr ⟨c, read⟩
      exact (consistent.lists_iff_find? named given).mpr known
  · intro lists
    obtain ⟨_, listed, _⟩ := id lists
    obtain ⟨c, read, _⟩ := symbolsOf_eq_ok_iff.mp listed
    rw [foundAt_of_scope read]
    exact (consistent.lists_iff named read).mp lists

theorem foundAt_eq_none_iff (consistent : t.Consistent) (named : t.Named) :
    t.foundAt text s = none ↔ ∀ x, ¬ t.Lists s text x := by
  rw [Option.eq_none_iff_forall_ne_some]
  exact forall_congr' fun x => not_congr (consistent.foundAt_eq_some_iff named)

theorem foundIn_eq_foundAt (consistent : t.Consistent) (name : t.names.find? text = some n)
    (given : t.HasSymbol y) : t.foundIn n y = .ok ((t.bodyAt y).bind (t.foundAt text)) := by
  obtain ⟨a, symbol⟩ := hasSymbol_iff.mp given
  rw [Table.foundIn, body?_of_symbol symbol, bodyAt_of_symbol symbol]
  cases body : a.form.body? with
  | none => rfl
  | some b =>
    obtain ⟨c, read, _⟩ := consistent.body symbol body
    rw [Option.bind_some, foundAt_of_scope read, name]
    simp [read]

/-- The members of a struct or class are those found in the bodies along its chain. -/
theorem memberNamed_eq_search (consistent : t.Consistent) (name : t.names.find? text = some n)
    (given : t.HasSymbol C) (chain : t.chain C = .ok supers) :
    t.memberNamed C n = .ok ((supers.filterMap t.bodyAt).findSome? (t.foundAt text)) := by
  obtain ⟨supers', chain', inside⟩ := consistent.settles.chainVia given
  cases Except.ok.inj (chain.symm.trans chain')
  rw [Table.memberNamed, memberVia_eq, ← Table.chain, chain, ← List.head?_filterMap,
    List.filterMap_filterMap, List.head?_filterMap]
  exact Answer.findSomeM?_eq_ok fun y member =>
    consistent.foundIn_eq_foundAt name (inside y member)

/-- A scope that is no body of a struct or class is asked alone. -/
theorem askedFor_alone (consistent : t.Consistent) (read : t.scope s = .ok c)
    (other : ∀ C, c.owner? = some C → ¬ t.IsAggregate C) :
    t.askedFor s = .ok [s] ∧ ∀ n, t.answerVia t.superclass c n = .ok (c.find? n) := by
  have owner? := scopeOwner?_of_scope read
  cases owner : c.owner? with
  | none =>
    rw [owner] at owner?
    refine ⟨?_, fun n => ?_⟩
    · rw [Table.askedFor, owner?]
      rfl
    · rw [answerVia, owner]
      rfl
  | some C =>
    rw [owner] at owner?
    obtain ⟨a, symbol, _⟩ := consistent.owner read owner
    have plain : ¬ a.kind.isAggregate = true := fun kind => other C owner ⟨a, symbol, kind⟩
    refine ⟨?_, fun n => ?_⟩
    · rw [Table.askedFor, owner?]
      simp [kind_of_symbol symbol, plain]
    · rw [answerVia, owner]
      simp [kind_of_symbol symbol, plain]

/-- For the body of a struct or class the bodies of its superclasses are asked after it, and
what it answers is a member. -/
theorem askedFor_aggregate (consistent : t.Consistent) (read : t.scope s = .ok c)
    (owner : c.owner? = some C) (aggregate : t.IsAggregate C) :
    (∃ supers, t.superclassChain C = .ok supers ∧ t.chain C = .ok (C :: supers) ∧
      (C :: supers).filterMap t.bodyAt = s :: supers.filterMap t.bodyAt ∧
      t.askedFor s = .ok (s :: supers.filterMap t.bodyAt)) ∧
    ∀ n, t.answerVia t.superclass c n = t.memberNamed C n := by
  have owner? := scopeOwner?_of_scope read
  rw [owner] at owner?
  obtain ⟨a, symbol, kind⟩ := aggregate
  obtain ⟨a', symbol', body⟩ := consistent.owner read owner
  cases Except.ok.inj (symbol.symm.trans symbol')
  obtain ⟨chain, known, inside⟩ := consistent.settles.chainVia (hasSymbol_iff.mpr ⟨a, symbol⟩)
  obtain ⟨supers, _, shape⟩ := Answer.bind_eq_ok_iff.mp known
  cases shape
  have bodies := bodies_eq inside
  have first : (C :: supers).filterMap t.bodyAt = s :: supers.filterMap t.bodyAt :=
    List.filterMap_cons_some ((bodyAt_of_symbol symbol).trans body)
  rw [first] at bodies
  refine ⟨⟨supers, ?_, known, first, ?_⟩, fun n => ?_⟩
  · rw [superclassChain, Table.chain, known]
    rfl
  · rw [Table.askedFor, owner?]
    simp only [Answer.ok_bind, kind_of_symbol symbol, kind, if_true]
    rw [Table.chain, known]
    exact bodies
  · rw [answerVia, owner]
    simp only [Answer.ok_bind, kind_of_symbol symbol, kind, if_true]
    rfl

/-- For every scope it is asked itself first, and behind it bodies of superclasses only. What
it answers is the first that is found in one of these. -/
theorem askedFor (consistent : t.Consistent) (read : t.scope s = .ok c) :
    ∃ above, t.askedFor s = .ok (s :: above) ∧ (∀ q ∈ above, t.Inherits s q) ∧
      ∀ {text n}, t.names.find? text = some n →
        t.answerVia t.superclass c n = .ok ((s :: above).findSome? (t.foundAt text)) := by
  by_cases aggregate : ∃ C, c.owner? = some C ∧ t.IsAggregate C
  · obtain ⟨C, owner, aggregate⟩ := aggregate
    obtain ⟨⟨supers, above, chain, bodies, asked⟩, answers⟩ :=
      consistent.askedFor_aggregate read owner aggregate
    refine ⟨_, asked, fun q member => ?_, fun {text n} name => ?_⟩
    · obtain ⟨P, inside, has⟩ := List.mem_filterMap.mp member
      have owner? := (scopeOwner?_of_scope read).trans (congrArg Except.ok owner)
      exact ⟨C, supers, P, owner?, above, inside, bodyAt_eq_some_iff.mp has⟩
    · rw [answers, ← bodies]
      exact consistent.memberNamed_eq_search name aggregate.hasSymbol chain
  · obtain ⟨asked, answers⟩ := consistent.askedFor_alone read
      fun C owner inside => aggregate ⟨C, owner, inside⟩
    refine ⟨[], asked, by simp, fun {text n} name => ?_⟩
    rw [answers, List.findSome?_singleton, foundAt_of_scope read, name]
    rfl

theorem askedAt (consistent : t.Consistent) (read : t.scope s = .ok c) :
    t.askedFor s = .ok (t.askedAt s) ∧ (∀ q, q ∈ t.askedAt s → q = s ∨ t.Inherits s q) ∧
      (∃ above, t.askedAt s = s :: above) ∧ ∀ {text n}, t.names.find? text = some n →
        t.answerVia t.superclass c n = .ok ((t.askedAt s).findSome? (t.foundAt text)) := by
  obtain ⟨above, asked, inherited, answers⟩ := consistent.askedFor read
  have same : t.askedAt s = s :: above := by
    rw [Table.askedAt, asked]
    rfl
  rw [same]
  exact ⟨asked, fun q member => (List.mem_cons.mp member).imp id (inherited q), ⟨above, rfl⟩,
    answers⟩

/-- The search goes scope by scope outwards. -/
theorem lookupWithin_eq_search (consistent : t.Consistent) (walk : Walk t.enclosing? s path)
    (name : t.names.find? text = some n) {steps : Nat} (enough : path.length ≤ steps) :
    t.lookupWithin t.superclass n steps s =
      .ok ((path.flatMap t.askedAt).findSome? (t.foundAt text)) := by
  induction walk generalizing steps with
  | @stop s ends =>
    obtain ⟨c, read, outer⟩ := enclosing?_eq_ok_iff.mp ends
    obtain ⟨_, _, _, answers⟩ := consistent.askedAt read
    obtain ⟨steps, rfl⟩ : ∃ k, steps = k + 1 := ⟨steps - 1, by simp at enough; omega⟩
    rw [Table.lookupWithin, read, Answer.ok_bind, answers name, Answer.ok_bind, outer,
      List.flatMap_singleton]
    cases (t.askedAt s).findSome? (t.foundAt text) <;> rfl
  | @step s o path goes further ih =>
    obtain ⟨c, read, outer⟩ := enclosing?_eq_ok_iff.mp goes
    obtain ⟨_, _, _, answers⟩ := consistent.askedAt read
    rw [List.length_cons] at enough
    obtain ⟨steps, rfl⟩ : ∃ k, steps = k + 1 := ⟨steps - 1, by omega⟩
    rw [Table.lookupWithin, read, Answer.ok_bind, answers name, Answer.ok_bind, outer,
      List.flatMap_cons, List.findSome?_append]
    cases (t.askedAt s).findSome? (t.foundAt text) with
    | some x => rfl
    | none => exact ih (Nat.le_of_succ_le_succ enough)

theorem searchList_eq (consistent : t.Consistent) (walk : Walk t.enclosing? s path) :
    t.searchList s = .ok (path.flatMap t.askedAt) := by
  have known : ∀ o ∈ path, t.askedFor o = .ok (t.askedAt o) := by
    intro o member
    obtain ⟨c, read⟩ := hasScope_iff.mp (hasScope_of_mem_walk walk member)
    exact (consistent.askedAt read).1
  rw [searchList, enclosingPath_eq_ok_iff.mpr walk, Answer.ok_bind, Answer.mapM_eq_ok known,
    Answer.ok_bind, ← List.flatMap_def]
  rfl

/-- A name resolves to what is found first. -/
theorem resolve_eq_search (consistent : t.Consistent) (walk : Walk t.enclosing? s path)
    (text : String) :
    t.resolve s text = .ok ((path.flatMap t.askedAt).findSome? (t.foundAt text)) := by
  cases name : t.names.find? text with
  | none =>
    rw [resolve, name, findSome?_of_unnamed name]
    rfl
  | some n =>
    rw [resolve, name]
    exact consistent.lookupWithin_eq_search walk name (length_walk_le_outwardSteps walk)

/-- The members of a struct or class are found in the scopes asked for its body. -/
theorem resolveMember_eq_search (consistent : t.Consistent) (aggregate : t.IsAggregate C)
    (body : t.body? C = .ok (some b)) (text : String) :
    t.resolveMember C text = .ok ((t.askedAt b).findSome? (t.foundAt text)) := by
  cases name : t.names.find? text with
  | none =>
    rw [resolveMember, name, findSome?_of_unnamed name]
    rfl
  | some n =>
    obtain ⟨a, symbol, has⟩ := body?_eq_ok_iff.mp body
    obtain ⟨c, read, owner, _⟩ := consistent.body symbol has
    have answers := (consistent.askedFor_aggregate read owner aggregate).2 n
    rw [resolveMember, name]
    exact answers.symm.trans ((consistent.askedAt read).2.2.2 name)

theorem mem_search (consistent : t.Consistent) (walk : Walk t.enclosing? s path)
    (member : q ∈ path.flatMap t.askedAt) : q ∈ path ∨ ∃ o ∈ path, t.Inherits o q := by
  obtain ⟨o, inside, asked⟩ := List.mem_flatMap.mp member
  obtain ⟨c, read⟩ := hasScope_iff.mp (hasScope_of_mem_walk walk inside)
  rcases (consistent.askedAt read).2.1 q asked with rfl | inherits
  · exact .inl inside
  · exact .inr ⟨o, inside, inherits⟩

end Consistent

/-- In every reachable table a name resolves to what the first scope of the search list
lists under it. A member of a struct or class comes before all names around it. Asked are
only the scopes around, and the bodies of superclasses of the classes whose bodies these
are. -/
theorem Reachable.resolve_search (reachable : t.Reachable) (given : t.HasScope s)
    (text : String) : ∃ path l, t.enclosingPath s = .ok path ∧ t.searchList s = .ok l ∧
      (∃ found, t.resolve s text = .ok found) ∧
      (∀ x, t.resolve s text = .ok (some x) ↔ ∃ before q after, l = before ++ q :: after ∧
        (∀ p ∈ before, ∀ y, ¬ t.Lists p text y) ∧ t.Lists q text x) ∧
      (t.resolve s text = .ok none ↔ ∀ q ∈ l, ∀ x, ¬ t.Lists q text x) ∧
      (∀ q x, t.Lists q text x → t.owningScope? x = .ok (some q)) ∧
      (∀ inner b outer C m, path = inner ++ b :: outer → t.IsAggregate C →
        t.body? C = .ok (some b) → t.resolveMember C text = .ok (some m) →
        (∀ o ∈ inner, ∀ asked, t.askedFor o = .ok asked → ∀ q ∈ asked, ∀ x, ¬ t.Lists q text x) →
        t.resolve s text = .ok (some m)) ∧
      (∀ q ∈ l, q ∈ path ∨ ∃ o ∈ path, t.Inherits o q) ∧
      ∀ x, t.owningScope? x = .ok (some s) → t.symbolName x = .ok text →
        t.resolve s text = .ok (some x) := by
  have consistent := reachable.consistent
  have named := reachable.named
  obtain ⟨path, walk⟩ := consistent.rooted given
  have search := consistent.resolve_eq_search walk text
  have nothing : ∀ q, t.foundAt text q = none ↔ ∀ x, ¬ t.Lists q text x :=
    fun q => consistent.foundAt_eq_none_iff named
  refine ⟨path, _, enclosingPath_eq_ok_iff.mpr walk, consistent.searchList_eq walk, ⟨_, search⟩,
    fun x => ?_, ?_, fun q x lists => ?_, ?_, fun q => consistent.mem_search walk, ?_⟩
  · rw [search, Except.ok.injEq, List.findSome?_eq_some_iff]
    constructor
    · rintro ⟨before, q, after, split, found, none⟩
      exact ⟨before, q, after, split, fun p member => (nothing p).mp (none p member),
        (consistent.foundAt_eq_some_iff named).mp found⟩
    · rintro ⟨before, q, after, split, none, lists⟩
      exact ⟨before, q, after, split, (consistent.foundAt_eq_some_iff named).mpr lists,
        fun p member => (nothing p).mpr (none p member)⟩
  · rw [search, Except.ok.injEq, List.findSome?_eq_none_iff]
    exact forall₂_congr fun q _ => nothing q
  · obtain ⟨l, listed, member, _⟩ := lists
    exact (consistent.mem_symbolsOf_iff listed).mp member
  · rintro inner b outer C m rfl aggregate body found before
    rw [consistent.resolveMember_eq_search aggregate body, Except.ok.injEq] at found
    have none : (inner.flatMap t.askedAt).findSome? (t.foundAt text) = none := by
      refine List.findSome?_eq_none_iff.mpr fun q member => (nothing q).mpr ?_
      obtain ⟨o, inside, asked⟩ := List.mem_flatMap.mp member
      have here : o ∈ inner ++ b :: outer := List.mem_append_left _ inside
      obtain ⟨c, read⟩ := hasScope_iff.mp (hasScope_of_mem_walk walk here)
      exact before o inside _ (consistent.askedAt read).1 q asked
    rw [search, List.flatMap_append, List.findSome?_append, none, List.flatMap_cons,
      List.findSome?_append, found]
    rfl
  · intro x home called
    obtain ⟨rest, rfl⟩ := walk.eq_cons
    obtain ⟨c, read⟩ := hasScope_iff.mp given
    obtain ⟨above, asked⟩ := (consistent.askedAt read).2.2.1
    have listed : t.symbolsOf s = .ok c.members.toList := symbolsOf_eq_ok_iff.mpr ⟨c, read, rfl⟩
    have lists : t.Lists s text x :=
      ⟨_, listed, (consistent.mem_symbolsOf_iff listed).mpr home, called⟩
    rw [search, List.flatMap_cons, asked, List.cons_append, List.findSome?_cons,
      (consistent.foundAt_eq_some_iff named).mpr lists]

/-- A class inside a class, and another that extends it, inside one that extends the class
around it. A variable and a field of the outermost class have one name. -/
def around : Run where
  config := {}
  operations := [
    .declare "Outer" (.classType none), .define .global ⟨0⟩,
    .declare "Inner" (.classType none), .define ⟨2⟩ ⟨1⟩,
    .declare "Sub" (.classType (some "Outer")), .define .global ⟨2⟩,
    .declare "D" (.classType (some "Inner")), .define ⟨4⟩ ⟨3⟩,
    .declare "k" (.var none), .define .global ⟨4⟩,
    .declare "k" (.field none), .define ⟨2⟩ ⟨5⟩]
  accepted := by decide +kernel

theorem around_resolve_search : around.final.Reachable ∧ around.final.HasScope ⟨5⟩ ∧
    ∃ l, around.final.searchList ⟨5⟩ = .ok l ∧ l = [⟨5⟩, ⟨3⟩, ⟨4⟩, ⟨2⟩, ⟨1⟩, ⟨0⟩] ∧
      (∃ before q after, l = before ++ q :: after ∧
        (∀ p ∈ before, ∀ y, ¬ around.final.Lists p "k" y) ∧ around.final.Lists q "k" ⟨5⟩) ∧
      around.final.owningScope? ⟨5⟩ = .ok (some ⟨2⟩) ∧
      around.final.resolve ⟨3⟩ "k" = .ok (some ⟨5⟩) := by
  have reachable := around.reachable around.operations.length
  have given : around.final.HasScope ⟨5⟩ := by decide +kernel
  obtain ⟨path, l, _, listed, _, first, _⟩ := Reachable.resolve_search reachable given "k"
  have known : around.final.searchList ⟨5⟩ = .ok [⟨5⟩, ⟨3⟩, ⟨4⟩, ⟨2⟩, ⟨1⟩, ⟨0⟩] := by decide +kernel
  refine ⟨reachable, given, l, listed, Except.ok.inj (listed.symm.trans known),
    (first ⟨5⟩).mp (by decide +kernel), by decide +kernel, by decide +kernel⟩

/-- The scopes around the body of a superclass are not asked, but for those around `s`. -/
def SkipsSurroundings (t : Table) : Prop := ∀ s path l o b surrounding q,
  t.enclosingPath s = .ok path → t.searchList s = .ok l → o ∈ path → t.Inherits o b →
    t.enclosingPath b = .ok surrounding → q ∈ surrounding.tail → q ∈ l → q ∈ path

/-- A scope around a superclass that is itself the body of a superclass is asked. -/
theorem around_asks_surroundings : around.final.Reachable ∧ ¬ around.final.SkipsSurroundings ∧
    around.final.find? .global "k" = .ok (some ⟨4⟩) ∧
    around.final.resolve ⟨5⟩ "k" = .ok (some ⟨5⟩) := by
  refine ⟨around.reachable around.operations.length, fun skips => ?_, by decide +kernel,
    by decide +kernel⟩
  -- the body of `Outer` is around `Inner`, the superclass of `D`, and not around `D`
  have inherits : around.final.Inherits ⟨5⟩ ⟨3⟩ :=
    ⟨⟨3⟩, [⟨1⟩], ⟨1⟩, by decide +kernel, by decide +kernel, by simp, by decide +kernel⟩
  have inside := skips ⟨5⟩ [⟨5⟩, ⟨4⟩, ⟨1⟩, ⟨0⟩] [⟨5⟩, ⟨3⟩, ⟨4⟩, ⟨2⟩, ⟨1⟩, ⟨0⟩] ⟨5⟩ ⟨3⟩
    [⟨3⟩, ⟨2⟩, ⟨1⟩, ⟨0⟩] ⟨2⟩ (by decide +kernel) (by decide +kernel) (by decide) inherits
    (by decide +kernel) (by decide) (by decide)
  exact absurd inside (by decide)

end Table

end Scoping
