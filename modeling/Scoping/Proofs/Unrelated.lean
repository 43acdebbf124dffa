import Scoping.Proofs.Dependence
import Scoping.Proofs.Reordering

/-!
# Unrelated look-ups

A definition moves the body of the symbol with all that lies in it, and lists the symbol
under its name. From outside the body, and under other names, everything is looked up as
before, unless a class asks for a superclass of that name. For no class that is asked on
the way lies in the body, however many superclasses there are in between.
-/

namespace Scoping

namespace Table

variable {t u : Table} {C D E P x : SymbolId} {s q : ScopeId} {n : Name} {d : Nat}
  {text : String} {path : List ScopeId}

/-- The scope neither is the body of `x` nor lies in it. -/
def Outside (t : Table) (x : SymbolId) (s : ScopeId) : Prop :=
  ∀ b path, t.body? x = .ok (some b) → t.enclosingPath s = .ok path → b ∉ path

/-- The body of `C`, if it has one, neither is the body of `x` nor lies in it. -/
def Apart (t : Table) (x C : SymbolId) : Prop :=
  ∀ body, t.body? C = .ok (some body) → t.Outside x body

theorem Outside.of_mem (outside : t.Outside x s) (walk : Walk t.enclosing? s path)
    (member : q ∈ path) : t.Outside x q := by
  intro b after body known inside
  obtain ⟨before, after', split, walk'⟩ := walk.from_mem member
  cases walk'.unique (enclosingPath_eq_ok_iff.mp known)
  refine outside b path body (enclosingPath_eq_ok_iff.mpr walk) ?_
  rw [split]
  exact List.mem_append_right before inside

/-- The scope around is outside, too. -/
theorem Outside.outward (outside : t.Outside x s) (goes : t.enclosing? s = .ok (some q)) :
    t.Outside x q := by
  intro b path body known inside
  have walk := Walk.step goes (enclosingPath_eq_ok_iff.mp known)
  exact outside b _ body (enclosingPath_eq_ok_iff.mpr walk) (List.mem_cons_of_mem s inside)

/-- As long as `x` is not defined, its body lies in no scope. -/
theorem Outside.inward (outside : t.Outside x q) (consistent : t.Consistent)
    (undefined : t.owningScope? x = .ok none) (goes : t.enclosing? s = .ok (some q)) :
    t.Outside x s := by
  intro b path body known inside
  cases enclosingPath_eq_ok_iff.mp known with
  | stop ends => cases goes.symm.trans ends
  | step goes' rest =>
    cases Except.ok.inj (goes.symm.trans goes')
    rcases List.mem_cons.mp inside with rfl | inside
    · obtain ⟨_, home, place, around⟩ := consistent.body_links body
      rw [undefined] at place
      cases Except.ok.inj place
      cases goes.symm.trans around
    · exact outside b _ body (enclosingPath_eq_ok_iff.mpr rest) inside

/-- What lies outside has its superclass outside. To be found, a superclass is defined in a
scope around, or in the body of a class that was asked there; and the classes that are asked
lie less deep. -/
theorem Consistent.settles_apart (consistent : t.Consistent)
    (undefined : t.owningScope? x = .ok none) (d : Nat) :
    t.Settles t.superclass fun C => t.Lies d C ∧ t.Apart x C := by
  induction d with
  | zero => exact ⟨fun both => both.1.given, fun both => absurd both.1.pos (Nat.lt_irrefl 0)⟩
  | succ d ih =>
    refine ⟨fun both => both.1.given, ?_⟩
    rintro C ⟨lies, apart⟩
    obtain ⟨r, known, deep⟩ := (consistent.settles_depth (d + 1)).answers lies
    refine ⟨r, known, ?_⟩
    rintro P rfl
    refine ⟨deep P rfl, fun body has => ?_⟩
    obtain ⟨n, s, seeks, found⟩ := consistent.exists_seeks known
    obtain ⟨b, around, goes⟩ := consistent.body_of_seeks seeks
    have outside : t.Outside x s := (apart b around).outward goes
    obtain ⟨a, symbol, _, home⟩ := seeks
    obtain ⟨path, walk, short⟩ := lies.around consistent symbol home
    have meets : t.Meets path fun C => t.Lies d C ∧ t.Apart x C := by
      intro q member c owner read owned
      refine ⟨consistent.meets walk short q member c owner read owned, fun body has => ?_⟩
      obtain ⟨e, symbol', body'⟩ := consistent.owner read owned
      rw [body?_of_symbol symbol', body'] at has
      cases has
      exact outside.of_mem walk member
    obtain ⟨r, found', sound⟩ :=
      ih.lookupWithin (n := n) consistent walk meets (length_walk_le_outwardSteps walk)
    cases Except.ok.inj (found.symm.trans found')
    obtain ⟨q, c, read, there, place⟩ := sound P rfl
    have outside' : t.Outside x q := by
      rcases place with member | ⟨E, asked, body'⟩
      · exact outside.of_mem walk member
      · exact asked.2 q body'
    obtain ⟨e, symbol', home', _⟩ := (consistent.find?_eq_some_iff read).mp there
    obtain ⟨_, o, here, inner⟩ := consistent.body_links has
    rw [owningScope?_eq_ok_iff.mpr ⟨e, symbol', home'⟩] at here
    cases Except.ok.inj here
    exact outside'.inward consistent undefined inner

theorem Consistent.apart_of_superclass (consistent : t.Consistent)
    (undefined : t.owningScope? x = .ok none) (apart : t.Apart x C)
    (above : t.superclass C = .ok (some P)) : t.Apart x P := by
  rcases consistent.depth (hasSymbol_of_superclassWithin above) with ⟨bodiless, _⟩ | ⟨d, _, lies⟩
  · rw [consistent.superclass_eq (hasSymbol_of_superclassWithin above),
      superclassVia_of_body_none bodiless] at above
    cases above
  · obtain ⟨r, known, stays⟩ := (consistent.settles_apart undefined d).answers ⟨lies, apart⟩
    rw [above] at known
    cases known
    exact (stays P rfl).2

/-- All that a class outside depends on lies outside. -/
theorem Consistent.apart_of_depends (consistent : t.Consistent)
    (undefined : t.owningScope? x = .ok none) (apart : t.Apart x C) (depends : t.Depends C D) :
    t.Apart x D := by
  induction depends with
  | refl => exact apart
  | @tail D E _ next ih =>
    rcases next with above | ⟨n, s, before, q, after, c, seeks, walk, _, read, owner, _⟩
    · exact consistent.apart_of_superclass undefined ih above
    · obtain ⟨b, around, goes⟩ := consistent.body_of_seeks seeks
      intro body has
      obtain ⟨e, symbol, body'⟩ := consistent.owner read owner
      rw [body?_of_symbol symbol, body'] at has
      cases has
      exact ((ih b around).outward goes).of_mem walk (by simp)

/-! ### A definition -/

/-- A scope that has got a scope around it is the body of a symbol that was defined since. -/
theorem Later.owner_of_enclosed (later : Later t u) (before : t.Forest) (after : u.Forest)
    {o : ScopeId} (outermost : t.enclosing? q = .ok none) (goes : u.enclosing? q = .ok (some o)) :
    ∃ y, t.body? y = .ok (some q) ∧ DefinedSince t u y := by
  obtain ⟨c, read, _⟩ := enclosing?_eq_ok_iff.mp outermost
  rcases (before.enclosing?_eq_none_iff later.before (hasScope_iff.mpr ⟨c, read⟩)).mp outermost with
    rfl | ⟨y, has, undefined⟩
  · obtain ⟨c', read', _, outer⟩ := after.root
    rw [enclosing?_of_scope read', outer] at goes
    cases goes
  · obtain ⟨a, symbol, _⟩ := body?_eq_ok_iff.mp has
    have given : t.HasSymbol y := hasSymbol_iff.mpr ⟨a, symbol⟩
    obtain ⟨_, home, known, around⟩ := later.after.body_links ((later.body?_eq given).trans has)
    cases Except.ok.inj (goes.symm.trans around)
    refine ⟨y, has, ⟨o, known⟩, fun r here => ?_⟩
    rw [undefined] at here
    cases here

/-- Between the two states just `x` was defined, and no name was given out. -/
structure DefinedAlone (t u : Table) (x : SymbolId) : Prop extends Later t u where
  forest : t.Forest
  forest' : u.Forest
  undefined : t.owningScope? x = .ok none
  only : ∀ y, DefinedSince t u y → y = x
  sameNames : u.names = t.names

theorem Reachable.definedAlone (reachable : t.Reachable) (defined : t.define s x = .ok (.ok u)) :
    DefinedAlone t u x := by
  have consistent := reachable.consistent
  have change : Change (fun _ => True) t u := .define defined fun _ _ => trivial
  have adds := consistent.adds_define defined
  obtain ⟨a, c, admits, _⟩ := define_eq_ok defined
  constructor
  case toLater => exact ⟨.define consistent defined, consistent, consistent.change change⟩
  case forest => exact reachable.forest
  case forest' => exact reachable.forest.change consistent change
  case undefined => exact owningScope?_eq_ok_iff.mpr ⟨a, admits.symbol, admits.homeless⟩
  case only =>
    rintro y ⟨⟨r, home⟩, new⟩
    rcases (adds.home y r).mp home with old | added
    · exact absurd old (new r)
    · exact (Prod.mk.inj (List.mem_singleton.mp added)).2
  case sameNames => exact adds.names.symm

namespace DefinedAlone

/-- Outside of the body no way outwards has become longer. -/
theorem not_enclosed (alone : DefinedAlone t u x) (outside : t.Outside x s)
    (walk : Walk t.enclosing? s path) {root o : ScopeId} (last : path.getLast? = some root) :
    u.enclosing? root ≠ .ok (some o) := by
  intro goes
  obtain ⟨root', last', ends⟩ := walk.next_getLast
  cases last.symm.trans last'
  obtain ⟨y, body, since⟩ := alone.owner_of_enclosed alone.forest alone.forest' ends goes
  cases alone.only y since
  exact outside root path body (enclosingPath_eq_ok_iff.mpr walk) (List.mem_of_getLast? last)

/-- No search from outside goes on further than before. -/
theorem not_attached (alone : DefinedAlone t u x) (apart : t.Apart x D) : ¬ Attached t u D := by
  rintro ⟨n, s, root, o, seeks, _, outermost, goes⟩
  obtain ⟨body, has, around⟩ := alone.before.body_of_seeks seeks
  have outside : t.Outside x s := (apart body has).outward around
  obtain ⟨path, walk⟩ := alone.before.rooted (alone.before.hasScope_of_seeks seeks)
  obtain ⟨root', last, _⟩ := walk.next_getLast
  cases Except.ok.inj (outermost.symm.trans (outermost_of_walk walk last))
  exact alone.not_enclosed outside walk last goes

/-- A class outside looks for its superclass from where it did. -/
theorem still (alone : DefinedAlone t u x) (given : t.HasSymbol C) (apart : t.Apart x C)
    (seeks : u.Seeks C n s) : t.Seeks C n s := by
  refine alone.of_seeks given (fun since => ?_) seeks
  cases alone.only C since
  -- no class is outside of its own body
  obtain ⟨b, has, _⟩ := alone.after.body_of_seeks seeks
  rw [alone.body?_eq given] at has
  obtain ⟨_, home, place, around⟩ := alone.before.body_links has
  rw [alone.undefined] at place
  cases Except.ok.inj place
  have path := enclosingPath_eq_ok_iff.mpr (Walk.stop around)
  exact apart b has b [b] has path (List.mem_singleton_self b)

section Unnamed

variable {a : Symbol} (alone : DefinedAlone t u x) (symbol : t.symbol x = .ok a)
  (unnamed : ∀ D s, ¬ t.Seeks D a.name s)
include alone symbol unnamed

/-- No class outside was affected, since none asks for the name. -/
theorem steady (apart : t.Apart x C) : Steady t u C := by
  intro D depends affected
  have apart' := alone.before.apart_of_depends alone.undefined apart depends
  obtain ⟨n, s, y, seeks, found, since⟩ := affected.resolve_right (alone.not_attached apart')
  cases alone.only y since
  have given := alone.hasScope (alone.before.hasScope_of_seeks seeks)
  obtain ⟨b, _, symbol', rfl, _⟩ := alone.after.placed_of_resolveName given found
  obtain ⟨b', read, kept⟩ := alone.symbol symbol
  cases Except.ok.inj (symbol'.symm.trans read)
  exact absurd (kept.name ▸ seeks) (unnamed D s)

/-- The chain of a class outside is the one that it was. -/
theorem chain (given : t.HasSymbol C) (apart : t.Apart x C) :
    ∃ l, t.chain C = .ok l ∧ u.chain C = .ok l ∧ u.superclass C = t.superclass C := by
  obtain ⟨l, chain, chain', same⟩ :=
    alone.toLater.chain_of_steady given (fun _ _ => alone.still given apart)
      (alone.steady symbol unnamed apart)
  obtain ⟨supers, _, shape⟩ := Answer.bind_eq_ok_iff.mp chain
  cases shape
  exact ⟨_, chain, chain', same C List.mem_cons_self⟩

/-- The classes that are asked on a way outside have the chains that they had. -/
theorem chain_of_owner (outside : t.Outside x q) {c : Scope} (read : t.scope q = .ok c)
    (owner : c.owner? = some E) : ∃ l, t.chain E = .ok l ∧ u.chain E = .ok l := by
  obtain ⟨e, entry, body⟩ := alone.before.owner read owner
  have apart : t.Apart x E := by
    intro b has
    rw [body?_of_symbol entry, body] at has
    cases has
    exact outside
  obtain ⟨l, chain, chain', _⟩ :=
    alone.chain symbol unnamed (hasSymbol_iff.mpr ⟨e, entry⟩) apart
  exact ⟨l, chain, chain'⟩

omit unnamed in
/-- Under another name there is nothing new to find. -/
theorem eq_of_foundLater (other : n ≠ a.name) {r r' : Option SymbolId}
    (later : FoundLater t u n r r') : r' = r := by
  rcases later with same | ⟨y, _, since, name⟩
  · exact same
  · cases alone.only y since
    obtain ⟨b, read, kept⟩ := alone.symbol symbol
    rw [Table.name, read] at name
    exact absurd ((Except.ok.inj name).symm.trans kept.name) other

theorem resolveName (given : t.HasScope s) (outside : t.Outside x s) (other : n ≠ a.name) :
    ∃ r, t.resolveName s n = .ok r ∧ u.resolveName s n = .ok r := by
  obtain ⟨path, walk⟩ := alone.before.rooted given
  have answers : ∀ before q after, path = before ++ q :: after →
      (∀ o ∈ before, t.answerAt n o = .ok none) →
      ∃ r r', t.answerAt n q = .ok r ∧ u.answerAt n q = .ok r' ∧ FoundLater t u n r r' := by
    rintro before q after rfl _
    have member : q ∈ before ++ q :: after := by simp
    obtain ⟨c, read⟩ := hasScope_iff.mp (hasScope_of_mem_walk walk member)
    exact alone.answerAt read fun E owner _ _ =>
      alone.chain_of_owner symbol unnamed (outside.of_mem walk member) read owner
  obtain ⟨r, r', found, found', same | ⟨_, root, o, last, goes⟩⟩ :=
    alone.toLater.resolveName walk answers
  · cases alone.eq_of_foundLater symbol other same
    exact ⟨r, found, found'⟩
  · exact absurd goes (alone.not_enclosed outside walk last)

theorem memberNamed (given : t.HasSymbol C) (apart : t.Apart x C) (other : n ≠ a.name) :
    ∃ r, t.memberNamed C n = .ok r ∧ u.memberNamed C n = .ok r := by
  obtain ⟨l, chain, chain', _⟩ := alone.chain symbol unnamed given apart
  obtain ⟨r, r', found, found', same⟩ := alone.toLater.memberNamed given chain chain' n
  cases alone.eq_of_foundLater symbol other same
  exact ⟨r, found, found'⟩

end Unnamed

end DefinedAlone

/-- A definition leaves everything as it was that is looked up from outside the body of the
symbol and under another name: what a name resolves to, the superclass and all superclasses
of a class, and its members. This holds as long as no class names a superclass like that. -/
theorem Reachable.unrelated_lookups (reachable : t.Reachable)
    (defined : t.define s x = .ok (.ok u)) (called : t.symbolName x = .ok text)
    (unnamed : ∀ C, t.superclassName? C ≠ .ok (some text)) :
    (∀ r other, t.HasScope r → t.Outside x r → other ≠ text →
      ∃ found, t.resolve r other = .ok found ∧ u.resolve r other = .ok found) ∧
    ∀ C, t.HasSymbol C → t.Apart x C →
      (∃ above, t.superclass C = .ok above ∧ u.superclass C = .ok above) ∧
      (∃ l, t.superclassChain C = .ok l ∧ u.superclassChain C = .ok l) ∧
      ∀ other, other ≠ text →
        ∃ found, t.resolveMember C other = .ok found ∧ u.resolveMember C other = .ok found := by
  have alone := reachable.definedAlone defined
  have named := reachable.named
  obtain ⟨a, symbol, reads⟩ := named.symbolName_eq_ok_iff.mp called
  have unsought : ∀ D r, ¬ t.Seeks D a.name r := by
    rintro D r ⟨e, symbol', name, _⟩
    refine unnamed D ?_
    rw [superclassName?, symbol', ← reads.text]
    simp [name, nameText]
  -- another string has another name
  have others : ∀ {other n}, other ≠ text → t.names.find? other = some n → n ≠ a.name := by
    rintro other _ differs known rfl
    have also := (Names.find?_eq_some_iff named.sound).mp known
    exact differs (also.text.symm.trans reads.text)
  refine ⟨fun r other given outside differs => ?_, fun C given apart => ⟨?_, ?_, ?_⟩⟩
  · rw [resolve, resolve, alone.sameNames]
    cases known : t.names.find? other with
    | none => exact ⟨none, rfl, rfl⟩
    | some n => exact alone.resolveName symbol unsought given outside (others differs known)
  · obtain ⟨l, _, _, same⟩ := alone.chain symbol unsought given apart
    obtain ⟨above, known, _⟩ := alone.before.settles.answers given
    exact ⟨above, known, same.trans known⟩
  · obtain ⟨l, chain, chain', _⟩ := alone.chain symbol unsought given apart
    exact ⟨l.tail, by rw [superclassChain, chain]; rfl, by rw [superclassChain, chain']; rfl⟩
  · intro other differs
    rw [resolveMember, resolveMember, alone.sameNames]
    cases known : t.names.find? other with
    | none => exact ⟨none, rfl, rfl⟩
    | some n => exact alone.memberNamed symbol unsought given apart (others differs known)

/-- A class that inherits a method, and one with a method of the same name that is not
defined yet. -/
def aside : Run where
  config := {}
  operations := [
    .declare "Base" (.classType none), .define .global ⟨0⟩,
    .declare "m" (.method none), .define ⟨2⟩ ⟨1⟩,
    .declare "Sub" (.classType (some "Base")), .define .global ⟨2⟩,
    .declare "Aux" (.classType none), .declare "m" (.method none), .define ⟨5⟩ ⟨4⟩]
  accepted := by decide +kernel

theorem aside_unrelated_lookups : ∃ u, aside.final.Reachable ∧
    aside.final.define .global ⟨3⟩ = .ok (.ok u) ∧ aside.final.symbolName ⟨3⟩ = .ok "Aux" ∧
    (∀ C, aside.final.superclassName? C ≠ .ok (some "Aux")) ∧
    aside.final.HasScope ⟨4⟩ ∧ aside.final.Outside ⟨3⟩ ⟨4⟩ ∧
    aside.final.HasSymbol ⟨2⟩ ∧ aside.final.Apart ⟨3⟩ ⟨2⟩ ∧
    u.resolve ⟨4⟩ "m" = .ok (some ⟨1⟩) ∧ u.superclassChain ⟨2⟩ = .ok [⟨0⟩] ∧
    u.resolveMember ⟨2⟩ "m" = .ok (some ⟨1⟩) := by
  have reachable := aside.reachable aside.operations.length
  obtain ⟨v, all⟩ : ∃ v, aside.final.DefinesAll [(.global, ⟨3⟩)] v :=
    exists_definesAll_iff.mpr (by decide +kernel)
  obtain ⟨u, defined, _⟩ := all.cons
  have called : aside.final.symbolName ⟨3⟩ = .ok "Aux" := by decide +kernel
  have unnamed : ∀ C, aside.final.superclassName? C ≠ .ok (some "Aux") := by
    intro C names
    obtain ⟨a, symbol, _⟩ := Answer.bind_eq_ok_iff.mp names
    have among : ∀ D ∈ aside.final.everySymbol,
        aside.final.superclassName? D ≠ .ok (some "Aux") := by decide +kernel
    exact among C (mem_everySymbol.mpr (hasSymbol_iff.mpr ⟨a, symbol⟩)) names
  have outside : aside.final.Outside ⟨3⟩ ⟨4⟩ := by
    intro b path body known
    have body' : aside.final.body? ⟨3⟩ = .ok (some ⟨5⟩) := by decide +kernel
    have known' : aside.final.enclosingPath ⟨4⟩ = .ok [⟨4⟩, .global, .predefined] := by
      decide +kernel
    cases body.symm.trans body'
    cases known.symm.trans known'
    decide
  have apart : aside.final.Apart ⟨3⟩ ⟨2⟩ := by
    intro body has
    have has' : aside.final.body? ⟨2⟩ = .ok (some ⟨4⟩) := by decide +kernel
    cases has.symm.trans has'
    exact outside
  obtain ⟨resolves, classes⟩ := Reachable.unrelated_lookups reachable defined called unnamed
  have scope : aside.final.HasScope ⟨4⟩ := by decide +kernel
  have given : aside.final.HasSymbol ⟨2⟩ := by decide +kernel
  obtain ⟨m, resolved, resolved'⟩ := resolves ⟨4⟩ "m" scope outside (by decide)
  obtain ⟨_, ⟨l, chain, chain'⟩, members⟩ := classes ⟨2⟩ given apart
  obtain ⟨m', member, member'⟩ := members "m" (by decide)
  have before : aside.final.resolve ⟨4⟩ "m" = .ok (some ⟨1⟩) ∧
      aside.final.superclassChain ⟨2⟩ = .ok [⟨0⟩] ∧
      aside.final.resolveMember ⟨2⟩ "m" = .ok (some ⟨1⟩) := by decide +kernel
  cases resolved.symm.trans before.1
  cases chain.symm.trans before.2.1
  cases member.symm.trans before.2.2
  exact ⟨u, reachable, defined, called, unnamed, scope, outside, given, apart, resolved', chain',
    member'⟩

end Table

end Scoping
