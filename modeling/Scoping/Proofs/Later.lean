import Scoping.Proofs.Keeping
import Scoping.Proofs.Search

/-!
# Looking up later

Two states of one table are compared, the later of which keeps what stands in the earlier
one. What is found later in a scope is what was found before, or a symbol that had no place
yet. The same holds of a look-up on its whole way outwards, as long as the classes that are
asked have the superclasses that they had. If such a look-up found nothing, then it may go
on further out, when the scope where it ended has been put inside another since.
-/

namespace Scoping

namespace Table

variable {t u : Table} {s : ScopeId} {x y E : SymbolId} {a : Symbol} {c d : Scope} {n : Name}
  {r r' : Option SymbolId} {l : List SymbolId} {path : List ScopeId} {up other : Ancestry}

/-- The symbol was defined between the two states. -/
def DefinedSince (t u : Table) (x : SymbolId) : Prop :=
  (∃ s, u.owningScope? x = .ok (some s)) ∧ ∀ s, t.owningScope? x ≠ .ok (some s)

/-- Where `r` was found under a name there is now `r'`: the same, or a symbol of that name
that was defined since. -/
def FoundLater (t u : Table) (n : Name) (r r' : Option SymbolId) : Prop :=
  r' = r ∨ ∃ x, r' = some x ∧ DefinedSince t u x ∧ u.name x = .ok n

theorem FoundLater.refl (t u : Table) (n : Name) (r : Option SymbolId) :
    FoundLater t u n r r := .inl rfl

theorem FoundLater.eq_none (later : FoundLater t u n r none) : r = none := by
  rcases later with same | ⟨x, found, _⟩
  · exact same.symm
  · cases found

/-- What is there instead of nothing is new, and can be there instead of anything. -/
theorem FoundLater.of_none (later : FoundLater t u n none (some x)) (r : Option SymbolId) :
    FoundLater t u n r (some x) := by
  rcases later with same | new
  · cases same
  · exact .inr new

/-- An earlier and a later state of one table. -/
structure Later (t u : Table) : Prop extends Keeps t u where
  before : t.Consistent
  after : u.Consistent

theorem Consistent.later (consistent : t.Consistent) (steps : Steps t u) : Later t u where
  toKeeps := .steps consistent steps
  before := consistent
  after := (Keeps.changes consistent (changes_of_steps steps)).1

/-! ### Single scopes -/

/-- What a scope answers to a name. -/
def answerAt (t : Table) (n : Name) (s : ScopeId) : Answer (Option SymbolId) := do
  t.answerVia t.superclass (← t.scope s) n

theorem Consistent.foundIn_owner (consistent : t.Consistent) (read : t.scope s = .ok c)
    (owner : c.owner? = some E) (n : Name) : t.foundIn n E = .ok (c.find? n) := by
  obtain ⟨a, symbol, body⟩ := consistent.owner read owner
  rw [Table.foundIn, body?_of_symbol symbol, body]
  simp [read]

/-- What stands in the body of a struct or class comes before all that is inherited. -/
theorem Consistent.memberNamed_own (consistent : t.Consistent) (read : t.scope s = .ok c)
    (owner : c.owner? = some E) (found : c.find? n = some y) :
    t.memberNamed E n = .ok (some y) := by
  obtain ⟨a, symbol, _⟩ := consistent.owner read owner
  obtain ⟨chain, known, _⟩ := consistent.settles.chainVia (hasSymbol_iff.mpr ⟨a, symbol⟩)
  obtain ⟨supers, _, shape⟩ := Answer.bind_eq_ok_iff.mp known
  cases shape
  rw [Table.memberNamed, memberVia_eq, known, Answer.ok_bind, List.findSomeM?_cons,
    consistent.foundIn_owner read owner, found]
  rfl

/-- The ascent is the same among the same superclasses, however many steps it may take. -/
theorem ancestorsWithin_of_agree {steps more : Nat} {seen : List SymbolId}
    (found : ancestorsWithin up steps seen x = .ok l) (agree : ∀ F ∈ x :: l, other F = up F)
    (le : steps ≤ more) : ancestorsWithin other more seen x = .ok l := by
  induction steps generalizing x seen l more with
  | zero => cases found
  | succ steps ih =>
    obtain ⟨more, rfl⟩ : ∃ k, more = k + 1 := ⟨more - 1, by omega⟩
    obtain ⟨r, known, found⟩ := Answer.bind_eq_ok_iff.mp found
    rw [ancestorsWithin, agree x List.mem_cons_self, known, Answer.ok_bind]
    cases r with
    | none => exact found
    | some above =>
      by_cases again : above ∈ seen
      · simp only [again, if_true] at found ⊢
        exact found
      · simp only [again, if_false] at found ⊢
        obtain ⟨rest, further, shape⟩ := Answer.bind_eq_ok_iff.mp found
        cases shape
        rw [ih further (fun F member => agree F (List.mem_cons_of_mem x member))
          (Nat.le_of_succ_le_succ le)]
        rfl

namespace Later

theorem isAggregate_iff (later : Later t u) (given : t.HasSymbol E) :
    u.IsAggregate E ↔ t.IsAggregate E := by
  obtain ⟨a, symbol⟩ := hasSymbol_iff.mp given
  obtain ⟨b, symbol', kept⟩ := later.symbol symbol
  constructor
  · rintro ⟨b', read, kind⟩
    cases Except.ok.inj (symbol'.symm.trans read)
    exact ⟨a, symbol, kept.kind ▸ kind⟩
  · rintro ⟨a', read, kind⟩
    cases Except.ok.inj (symbol.symm.trans read)
    exact ⟨b, symbol', kept.kind.symm ▸ kind⟩

/-- A symbol that was defined before is not found under a name under which it was not. -/
theorem find? (later : Later t u) (read : t.scope s = .ok c) (read' : u.scope s = .ok d)
    (n : Name) : FoundLater t u n (c.find? n) (d.find? n) := by
  obtain ⟨d', read'', kept⟩ := later.scope read
  cases Except.ok.inj (read'.symm.trans read'')
  cases found : c.find? n with
  | some y => exact .inl (kept.find? found)
  | none =>
    cases found' : d.find? n with
    | none => exact .refl t u n none
    | some x =>
      obtain ⟨b, symbol', here, name⟩ := (later.after.find?_eq_some_iff read').mp found'
      refine .inr ⟨x, rfl, ⟨⟨s, owningScope?_eq_ok_iff.mpr ⟨b, symbol', here⟩⟩, ?_⟩, ?_⟩
      · intro r home
        obtain ⟨a, symbol, home⟩ := owningScope?_eq_ok_iff.mp home
        obtain ⟨b', symbol'', kept'⟩ := later.symbol symbol
        cases Except.ok.inj (symbol'.symm.trans symbol'')
        cases here.symm.trans (kept'.owningScope? home)
        have before := (later.before.find?_eq_some_iff read).mpr
          ⟨a, symbol, home, kept'.name.symm.trans name⟩
        rw [found] at before
        cases before
      · rw [Table.name, symbol', ← name]
        rfl

theorem size_symbols (later : Later t u) : t.symbols.size ≤ u.symbols.size := by
  refine Nat.le_of_not_lt fun fewer => ?_
  exact Nat.lt_irrefl _ (later.hasSymbol (x := ⟨u.symbols.size⟩) fewer)

/-- The superclasses of a symbol stay the same if none on its chain has another. -/
theorem chain (later : Later t u) (chain : t.chain E = .ok l)
    (agree : ∀ F ∈ l, u.superclass F = t.superclass F) : u.chain E = .ok l := by
  obtain ⟨supers, found, shape⟩ := Answer.bind_eq_ok_iff.mp chain
  cases shape
  have more := ancestorsWithin_of_agree found agree (Nat.add_le_add_right later.size_symbols 1)
  rw [Table.chain, chainVia, more]
  rfl

theorem foundIn (later : Later t u) (given : t.HasSymbol E) (n : Name) : ∃ r r',
    t.foundIn n E = .ok r ∧ u.foundIn n E = .ok r' ∧ FoundLater t u n r r' := by
  obtain ⟨a, symbol⟩ := hasSymbol_iff.mp given
  rw [Table.foundIn, Table.foundIn, later.body?_eq given, body?_of_symbol symbol]
  cases body : a.form.body? with
  | none => exact ⟨none, none, rfl, rfl, .refl t u n none⟩
  | some q =>
    obtain ⟨c, read, _⟩ := later.before.body symbol body
    obtain ⟨d, read', _⟩ := later.scope read
    exact ⟨c.find? n, d.find? n, by simp [read], by simp [read'], later.find? read read' n⟩

theorem findSomeM? (later : Later t u) (given : ∀ E ∈ l, t.HasSymbol E) (n : Name) : ∃ r r',
    l.findSomeM? (t.foundIn n) = .ok r ∧ l.findSomeM? (u.foundIn n) = .ok r' ∧
      FoundLater t u n r r' := by
  induction l with
  | nil => exact ⟨none, none, rfl, rfl, .refl t u n none⟩
  | cons E l ih =>
    obtain ⟨r, r', here, here', found⟩ := later.foundIn (given E List.mem_cons_self) n
    obtain ⟨q, q', rest, rest', found'⟩ :=
      ih fun F member => given F (List.mem_cons_of_mem E member)
    rw [List.findSomeM?_cons, List.findSomeM?_cons, here, here']
    cases r' with
    | none =>
      obtain rfl := found.eq_none
      exact ⟨q, q', rest, rest', found'⟩
    | some x =>
      cases r with
      | some y => exact ⟨some y, some x, rfl, rfl, found⟩
      | none => exact ⟨q, some x, rest, rfl, found.of_none q⟩

theorem memberNamed (later : Later t u) (given : t.HasSymbol E) (chain : t.chain E = .ok l)
    (chain' : u.chain E = .ok l) (n : Name) : ∃ r r',
    t.memberNamed E n = .ok r ∧ u.memberNamed E n = .ok r' ∧ FoundLater t u n r r' := by
  obtain ⟨l', known, inside⟩ := later.before.settles.chainVia given
  cases Except.ok.inj (chain.symm.trans known)
  obtain ⟨r, r', found, found', same⟩ := later.findSomeM? inside n
  refine ⟨r, r', ?_, ?_, same⟩
  · rw [Table.memberNamed, memberVia_eq, ← Table.chain, chain]
    exact found
  · rw [Table.memberNamed, memberVia_eq, ← Table.chain, chain']
    exact found'

/-- A class that is asked has to have the chain that it had, unless its own body knows the
name already. -/
theorem answerAt (later : Later t u) (read : t.scope s = .ok c)
    (agree : ∀ E, c.owner? = some E → t.IsAggregate E → c.find? n = none →
      ∃ l, t.chain E = .ok l ∧ u.chain E = .ok l) : ∃ r r',
    t.answerAt n s = .ok r ∧ u.answerAt n s = .ok r' ∧ FoundLater t u n r r' := by
  obtain ⟨d, read', kept⟩ := later.scope read
  have owners := kept.owner?_eq
  rw [Table.answerAt, Table.answerAt, read, read', Answer.ok_bind, Answer.ok_bind]
  by_cases aggregate : ∃ E, c.owner? = some E ∧ t.IsAggregate E
  · obtain ⟨E, owner, aggregate⟩ := aggregate
    have given := aggregate.hasSymbol
    have owner' := owners.trans owner
    rw [(later.before.askedFor_aggregate read owner aggregate).2 n,
      (later.after.askedFor_aggregate read' owner' ((later.isAggregate_iff given).mpr aggregate)).2]
    cases own : c.find? n with
    | some y => exact ⟨some y, some y, later.before.memberNamed_own read owner own,
        later.after.memberNamed_own read' owner' (kept.find? own), .refl t u n _⟩
    | none =>
      obtain ⟨l, chain, chain'⟩ := agree E owner aggregate own
      exact later.memberNamed given chain chain' n
  · have plain : ∀ E, c.owner? = some E → ¬ t.IsAggregate E :=
      fun E owner inside => aggregate ⟨E, owner, inside⟩
    have plain' : ∀ E, d.owner? = some E → ¬ u.IsAggregate E := by
      intro E owner inside
      rw [owners] at owner
      obtain ⟨a, symbol, _⟩ := later.before.owner read owner
      exact plain E owner ((later.isAggregate_iff (hasSymbol_iff.mpr ⟨a, symbol⟩)).mp inside)
    rw [(later.before.askedFor_alone read plain).2, (later.after.askedFor_alone read' plain').2]
    exact ⟨_, _, rfl, rfl, later.find? read read' n⟩

end Later

/-! ### The way outwards -/

/-- More steps than the way is long change nothing. -/
theorem lookupWithin_of_walk (up : Ancestry) (n : Name) {steps more : Nat}
    (walk : Walk t.enclosing? s path) (enough : path.length ≤ steps)
    (enough' : path.length ≤ more) :
    t.lookupWithin up n steps s = t.lookupWithin up n more s := by
  induction walk generalizing steps more with
  | @stop s ends =>
    obtain ⟨c, read, outer⟩ := enclosing?_eq_ok_iff.mp ends
    obtain ⟨steps, rfl⟩ : ∃ k, steps = k + 1 := ⟨steps - 1, by simp at enough; omega⟩
    obtain ⟨more, rfl⟩ : ∃ k, more = k + 1 := ⟨more - 1, by simp at enough'; omega⟩
    rw [lookupWithin, lookupWithin, read]
    simp only [Answer.ok_bind, outer]
  | @step s o path goes further ih =>
    obtain ⟨c, read, outer⟩ := enclosing?_eq_ok_iff.mp goes
    rw [List.length_cons] at enough enough'
    obtain ⟨steps, rfl⟩ : ∃ k, steps = k + 1 := ⟨steps - 1, by omega⟩
    obtain ⟨more, rfl⟩ : ∃ k, more = k + 1 := ⟨more - 1, by omega⟩
    have rest := ih (Nat.le_of_succ_le_succ enough) (Nat.le_of_succ_le_succ enough')
    rw [lookupWithin, lookupWithin, read]
    simp only [Answer.ok_bind, outer, rest]

/-- A name is looked up in a scope first and then around it. -/
theorem Consistent.resolveName_eq (consistent : t.Consistent) (read : t.scope s = .ok c) :
    t.resolveName s n = t.answerAt n s >>= fun answer =>
      answer.elim (c.enclosing.elim (.ok none) (t.resolveName · n)) fun x => .ok (some x) := by
  obtain ⟨path, walk⟩ := consistent.rooted (hasScope_iff.mpr ⟨c, read⟩)
  have short := length_walk_le walk
  rw [Table.resolveName, lookupVia, outwardSteps, lookupWithin, answerAt, read, Answer.ok_bind,
    Answer.ok_bind]
  cases t.answerVia t.superclass c n with
  | error e => rfl
  | ok answer =>
    cases answer with
    | some x => rfl
    | none =>
      rw [Answer.ok_bind, Answer.ok_bind, Option.elim_none]
      cases walk with
      | stop ends =>
        rw [enclosing?_of_scope read, Except.ok.injEq] at ends
        simp only [ends, Option.elim_none, Answer.pure_eq_ok]
      | step goes further =>
        rw [enclosing?_of_scope read, Except.ok.injEq] at goes
        rw [List.length_cons] at short
        have rest := lookupWithin_of_walk t.superclass n further
          (Nat.le_of_succ_le short) (length_walk_le_outwardSteps further)
        simp only [goes, Option.elim_some, rest]
        rfl

/-- A look-up goes the way that it went, and finds what it found or something new on it. If
there is nothing on the whole way, it may go on behind the end. -/
theorem Later.resolveName (later : Later t u) (walk : Walk t.enclosing? s path)
    (answers : ∀ before q after, path = before ++ q :: after →
      (∀ o ∈ before, t.answerAt n o = .ok none) →
      ∃ r r', t.answerAt n q = .ok r ∧ u.answerAt n q = .ok r' ∧ FoundLater t u n r r') :
    ∃ r r', t.resolveName s n = .ok r ∧ u.resolveName s n = .ok r' ∧
      (FoundLater t u n r r' ∨
        r = none ∧ ∃ root o, path.getLast? = some root ∧ u.enclosing? root = .ok (some o)) := by
  induction walk with
  | @stop s ends =>
    obtain ⟨c, read, outer⟩ := enclosing?_eq_ok_iff.mp ends
    obtain ⟨d, read', _⟩ := later.scope read
    obtain ⟨r, r', here, here', found⟩ := answers [] s [] rfl (by simp)
    rw [later.before.resolveName_eq read, later.after.resolveName_eq read', here, here', outer]
    cases r' with
    | some x =>
      cases r with
      | some y => exact ⟨some y, some x, rfl, rfl, .inl found⟩
      | none => exact ⟨none, some x, rfl, rfl, .inl found⟩
    | none =>
      obtain rfl := found.eq_none
      cases outer' : d.enclosing with
      | none => exact ⟨none, none, rfl, by simp, .inl (.refl t u n none)⟩
      | some o =>
        obtain ⟨r', further⟩ := later.after.resolveName (later.after.enclosing read' outer') n
        refine ⟨none, r', rfl, by simp [further], .inr ⟨rfl, s, o, rfl, ?_⟩⟩
        rw [enclosing?_of_scope read', outer']
  | @step s o path goes further ih =>
    obtain ⟨c, read, outer⟩ := enclosing?_eq_ok_iff.mp goes
    obtain ⟨d, read', kept⟩ := later.scope read
    obtain ⟨r, r', here, here', found⟩ := answers [] s path rfl (by simp)
    rw [later.before.resolveName_eq read, later.after.resolveName_eq read', here, here', outer,
      kept.enclosing outer]
    cases r' with
    | none =>
      obtain rfl := found.eq_none
      obtain ⟨r, r', before, after, found⟩ := ih fun inner q rest split silent => by
        refine answers (s :: inner) q rest (by rw [split]; rfl) fun p member => ?_
        rcases List.mem_cons.mp member with rfl | member
        · exact here
        · exact silent p member
      refine ⟨r, r', by simp [before], by simp [after], found.imp id ?_⟩
      rintro ⟨nothing, root, o, last, moved⟩
      refine ⟨nothing, root, o, ?_, moved⟩
      obtain ⟨rest, shape⟩ := further.eq_cons
      rw [shape] at last ⊢
      simpa using last
    | some x =>
      cases r with
      | some y => exact ⟨some y, some x, rfl, rfl, .inl found⟩
      | none =>
        obtain ⟨r, before⟩ := later.before.resolveName (later.before.enclosing read outer) n
        exact ⟨r, some x, by simp [before], rfl, .inl (found.of_none r)⟩

end Table

end Scoping
