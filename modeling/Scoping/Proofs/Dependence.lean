import Mathlib.Logic.Relation
import Scoping.Proofs.Forest
import Scoping.Proofs.Later

/-!
# What a superclass depends on

The superclass of a class is looked up by its name, outwards from where the class is
defined. The classes around that are asked on the way answer with what they inherit, so
that the superclass depends on theirs, and the chain of a class on all of these. It becomes
another one in two ways only. The name may be taken by a symbol that was defined since. Or
the name was not found, and the outermost scope around has got a scope around it.
-/

namespace Scoping

namespace Table

variable {t u : Table} {C D E F P x : SymbolId} {n : Name} {s q : ScopeId} {d : Nat}
  {path : List ScopeId} {l : List SymbolId}

/-- `D` names its superclass `n`, and is defined in `s`. -/
def Seeks (t : Table) (D : SymbolId) (n : Name) (s : ScopeId) : Prop :=
  ∃ a, t.symbol D = .ok a ∧ a.form.superclassName? = some n ∧ a.owningScope? = some s

/-- On the way to the superclass of `D` what `E` inherits is searched: the body of `E` lies
around `D` and does not know the name, and no scope before it answers. -/
def Asks (t : Table) (D E : SymbolId) : Prop :=
  ∃ n s before q after c, t.Seeks D n s ∧ Walk t.enclosing? s (before ++ q :: after) ∧
    (∀ o ∈ before, t.answerAt n o = .ok none) ∧ t.scope q = .ok c ∧ c.owner? = some E ∧
    t.IsAggregate E ∧ c.find? n = none

/-- To ask for the superclasses of `C` is to ask for the superclass of `D`, among others. -/
def Depends (t : Table) : SymbolId → SymbolId → Prop :=
  Relation.ReflTransGen fun D E => t.superclass D = .ok (some E) ∨ t.Asks D E

/-- The name of the superclass of `D` is now found to be a symbol that was defined since. -/
def Taken (t u : Table) (D : SymbolId) : Prop :=
  ∃ n s x, t.Seeks D n s ∧ u.resolveName s n = .ok (some x) ∧ DefinedSince t u x

/-- The name of the superclass of `D` was not found, and the search goes on further now. -/
def Attached (t u : Table) (D : SymbolId) : Prop :=
  ∃ n s root o, t.Seeks D n s ∧ t.resolveName s n = .ok none ∧ t.outermost s = .ok root ∧
    u.enclosing? root = .ok (some o)

/-- Where the superclass of a class that `C` depends on can have become another, it is
still the same. -/
def Steady (t u : Table) (C : SymbolId) : Prop :=
  ∀ D, t.Depends C D → Taken t u D ∨ Attached t u D → u.superclass D = t.superclass D

theorem Steady.of_depends (steady : Steady t u C) (depends : t.Depends C D) : Steady t u D :=
  fun F further => steady F (depends.trans further)

/-! ### Looking for a superclass -/

theorem chain_of_superclass_none (none : t.superclass C = .ok none) : t.chain C = .ok [C] := by
  rw [chain, chainVia, ancestorsWithin, none]
  rfl

namespace Consistent

theorem superclass_of_seeks (consistent : t.Consistent) (seeks : t.Seeks D n s) :
    t.superclass D = t.resolveName s n >>= fun found => found.elim (.ok none) t.classOnly := by
  obtain ⟨a, symbol, name, home⟩ := seeks
  rw [consistent.superclass_eq (hasSymbol_iff.mpr ⟨a, symbol⟩), superclassVia, symbol,
    Table.resolveName]
  simp only [Answer.ok_bind, name, home]
  cases t.lookupVia t.superclass s n with
  | error e => rfl
  | ok found => cases found <;> rfl

/-- Without a name or a place nothing is looked for. -/
theorem superclass_of_idle (consistent : t.Consistent) (given : t.HasSymbol D)
    (idle : ∀ n s, ¬ t.Seeks D n s) : t.superclass D = .ok none := by
  obtain ⟨a, symbol⟩ := hasSymbol_iff.mp given
  rw [consistent.superclass_eq given, superclassVia, symbol]
  cases name : a.form.superclassName? with
  | none => simp [name]
  | some n =>
    cases home : a.owningScope? with
    | none => simp [name, home]
    | some s => exact absurd ⟨a, symbol, name, home⟩ (idle n s)

/-- A superclass is what the name was found to be. -/
theorem exists_seeks (consistent : t.Consistent) (above : t.superclass D = .ok (some P)) :
    ∃ n s, t.Seeks D n s ∧ t.resolveName s n = .ok (some P) := by
  have given := hasSymbol_of_superclassWithin above
  by_cases idle : ∀ n s, ¬ t.Seeks D n s
  · rw [consistent.superclass_of_idle given idle] at above
    cases above
  · push Not at idle
    obtain ⟨n, s, seeks⟩ := idle
    rw [consistent.superclass_of_seeks seeks] at above
    obtain ⟨r, found, above⟩ := Answer.bind_eq_ok_iff.mp above
    cases r with
    | none => cases above
    | some y =>
      obtain ⟨kind, _, above⟩ := Answer.bind_eq_ok_iff.mp above
      split at above
      · cases above
        exact ⟨n, s, seeks, found⟩
      · cases above

/-- What is found is defined somewhere under the name. -/
theorem placed_of_resolveName (consistent : t.Consistent) (given : t.HasScope s)
    (found : t.resolveName s n = .ok (some x)) :
    ∃ a q, t.symbol x = .ok a ∧ a.name = n ∧ a.owningScope? = some q := by
  obtain ⟨path, walk⟩ := consistent.rooted given
  have meets := consistent.meets walk (Nat.le_refl path.length)
  obtain ⟨r, found', sound⟩ := (consistent.settles_depth path.length).lookupWithin (n := n)
    consistent walk meets (length_walk_le_outwardSteps walk)
  cases Except.ok.inj (found.symm.trans found')
  obtain ⟨q, d, read, there, _⟩ := sound x rfl
  obtain ⟨a, symbol, home, name⟩ := (consistent.find?_eq_some_iff read).mp there
  exact ⟨a, q, symbol, name, home⟩

theorem hasScope_of_seeks (consistent : t.Consistent) (seeks : t.Seeks D n s) : t.HasScope s := by
  obtain ⟨a, symbol, _, home⟩ := seeks
  obtain ⟨c, read, _⟩ := consistent.home symbol home
  exact hasScope_iff.mpr ⟨c, read⟩

theorem placed_of_superclass (consistent : t.Consistent)
    (above : t.superclass D = .ok (some P)) : ∃ q, t.owningScope? P = .ok (some q) := by
  obtain ⟨n, s, seeks, found⟩ := consistent.exists_seeks above
  obtain ⟨a, q, symbol, _, home⟩ :=
    consistent.placed_of_resolveName (consistent.hasScope_of_seeks seeks) found
  exact ⟨q, owningScope?_eq_ok_iff.mpr ⟨a, symbol, home⟩⟩

/-- What names a superclass is a class, and its body lies in the scope where it is defined. -/
theorem body_of_seeks (consistent : t.Consistent) (seeks : t.Seeks D n s) :
    ∃ b, t.body? D = .ok (some b) ∧ t.enclosing? b = .ok (some s) := by
  obtain ⟨a, symbol, name, home⟩ := seeks
  have has : ∃ b, a.form.body? = some b := by
    cases form : a.form with
    | classType layout superclass => exact ⟨layout.body, rfl⟩
    | _ => rw [form] at name; cases name
  obtain ⟨b, body⟩ := has
  obtain ⟨c, read, _, around⟩ := consistent.body symbol body
  refine ⟨b, body?_eq_ok_iff.mpr ⟨a, symbol, body⟩, ?_⟩
  rw [enclosing?_of_scope read, around, home]

/-- Where no scope on the way answers, nothing is found. -/
theorem resolveName_of_silent (consistent : t.Consistent) (walk : Walk t.enclosing? s path)
    (silent : ∀ o ∈ path, t.answerAt n o = .ok none) : t.resolveName s n = .ok none := by
  induction walk with
  | @stop s ends =>
    obtain ⟨c, read, outer⟩ := enclosing?_eq_ok_iff.mp ends
    rw [consistent.resolveName_eq read, silent s List.mem_cons_self, outer]
    rfl
  | @step s o path goes further ih =>
    obtain ⟨c, read, outer⟩ := enclosing?_eq_ok_iff.mp goes
    rw [consistent.resolveName_eq read, silent s List.mem_cons_self, outer]
    exact ih fun p member => silent p (List.mem_cons_of_mem s member)

end Consistent

/-- The body of a class without a place answers by itself. -/
theorem Consistent.answerAt_of_outermost (consistent : t.Consistent) {c : Scope}
    (read : t.scope q = .ok c) (outermost : c.enclosing = none) :
    t.answerAt n q = .ok (c.find? n) := by
  rw [answerAt, read, Answer.ok_bind]
  by_cases aggregate : ∃ E, c.owner? = some E ∧ t.IsAggregate E
  · obtain ⟨E, owner, aggregate⟩ := aggregate
    obtain ⟨a, symbol, body⟩ := consistent.owner read owner
    obtain ⟨c', read', _, around⟩ := consistent.body symbol body
    cases Except.ok.inj (read.symm.trans read')
    have idle : ∀ n s, ¬ t.Seeks E n s := by
      rintro n s ⟨a', symbol', _, home⟩
      cases Except.ok.inj (symbol.symm.trans symbol')
      cases (outermost.symm.trans around).trans home
    have none := consistent.superclass_of_idle (hasSymbol_iff.mpr ⟨a, symbol⟩) idle
    rw [(consistent.askedFor_aggregate read owner aggregate).2, Table.memberNamed, memberVia_eq,
      ← Table.chain, chain_of_superclass_none none, Answer.ok_bind, List.findSomeM?_cons,
      consistent.foundIn_owner read owner]
    cases c.find? n <;> rfl
  · exact (consistent.askedFor_alone read fun E owner inside => aggregate ⟨E, owner, inside⟩).2 n

theorem Asks.lies (asks : t.Asks D E) (consistent : t.Consistent) (lies : t.Lies (d + 1) D) :
    t.Lies d E := by
  obtain ⟨n, s, before, q, after, c, ⟨a, symbol, _, home⟩, walk, _, read, owner, _⟩ := asks
  obtain ⟨path, walk', short⟩ := lies.around consistent symbol home
  cases walk.unique walk'
  exact consistent.meets walk short q (by simp) c E read owner

/-! ### When nothing has become another -/

namespace Later

/-- The body of a class that was defined since was outermost. Where the search came to it
and found nothing, it may go on further out. -/
theorem attached_of_definedSince (later : Later t u) (asks : t.Asks D E)
    (since : DefinedSince t u E) : Attached t u D := by
  obtain ⟨n, s, before, q, after, c, seeks, walk, silent, read, owner, _, own⟩ := asks
  obtain ⟨a, symbol, body⟩ := later.before.owner read owner
  have has := body?_eq_ok_iff.mpr ⟨a, symbol, body⟩
  obtain ⟨_, home, known, outer⟩ := later.before.body_links has
  cases home with
  | some o => exact absurd known (since.2 o)
  | none =>
    have outermost : c.enclosing = none :=
      Except.ok.inj ((enclosing?_of_scope read).symm.trans outer)
    cases walk.suffix.unique (.stop outer)
    have nothing : t.resolveName s n = .ok none := by
      refine later.before.resolveName_of_silent walk fun o member => ?_
      rcases List.mem_append.mp member with member | last
      · exact silent o member
      · rw [List.mem_singleton.mp last, later.before.answerAt_of_outermost read outermost, own]
    obtain ⟨⟨o, home⟩, _⟩ := since
    have given : t.HasSymbol E := hasSymbol_iff.mpr ⟨a, symbol⟩
    obtain ⟨_, home', known', outer'⟩ :=
      later.after.body_links ((later.body?_eq given).trans has)
    cases Except.ok.inj (home.symm.trans known')
    have root := outermost_of_walk walk (by simp : (before ++ [q]).getLast? = some q)
    exact ⟨n, s, q, o, seeks, nothing, root, outer'⟩

theorem seeks (later : Later t u) (seeks : t.Seeks D n s) : u.Seeks D n s := by
  obtain ⟨a, symbol, name, home⟩ := seeks
  obtain ⟨b, symbol', kept⟩ := later.symbol symbol
  exact ⟨b, symbol', kept.superclass.trans name, kept.owningScope? home⟩

theorem of_seeks (later : Later t u) (given : t.HasSymbol D) (unmoved : ¬ DefinedSince t u D)
    (seeks : u.Seeks D n s) : t.Seeks D n s := by
  obtain ⟨a, symbol⟩ := hasSymbol_iff.mp given
  obtain ⟨b, symbol', kept⟩ := later.symbol symbol
  obtain ⟨b', read, name, home⟩ := seeks
  cases Except.ok.inj (symbol'.symm.trans read)
  refine ⟨a, symbol, kept.superclass.symm.trans name, ?_⟩
  cases here : a.owningScope? with
  | some o => rw [← kept.owningScope? here, home]
  | none =>
    refine absurd ⟨⟨s, owningScope?_eq_ok_iff.mpr ⟨b, symbol', home⟩⟩, fun o known => ?_⟩ unmoved
    obtain ⟨a', symbol'', here'⟩ := owningScope?_eq_ok_iff.mp known
    cases Except.ok.inj (symbol.symm.trans symbol'')
    cases here.symm.trans here'

/-- A chain is the same if the superclasses of all classes are that lie as deep as its first
at most, and of which the same is known: each class of the chain is one of these. -/
theorem chain_of_lies (later : Later t u) (lies : t.Lies d C)
    (still : ∀ n s, u.Seeks C n s → t.Seeks C n s) (steady : Steady t u C)
    (same : ∀ F, t.Lies d F → (∀ n s, u.Seeks F n s → t.Seeks F n s) → Steady t u F →
      u.superclass F = t.superclass F) :
    ∃ l, t.chain C = .ok l ∧ u.chain C = .ok l ∧ ∀ F ∈ l, u.superclass F = t.superclass F := by
  have settles : t.Settles t.superclass fun F => t.Lies d F ∧ t.Depends C F ∧
      ∀ n s, u.Seeks F n s → t.Seeks F n s := by
    refine ⟨fun inside => inside.1.given, ?_⟩
    rintro F ⟨lies, depends, _⟩
    obtain ⟨r, known, deep⟩ := (later.before.settles_depth d).answers lies
    refine ⟨r, known, ?_⟩
    rintro P rfl
    obtain ⟨q, home⟩ := later.before.placed_of_superclass known
    exact ⟨deep P rfl, depends.tail (.inl known), fun n s =>
      later.of_seeks (deep P rfl).given fun since => since.2 q home⟩
  obtain ⟨l, chain, inside⟩ := settles.chainVia ⟨lies, .refl, still⟩
  have agree : ∀ F ∈ l, u.superclass F = t.superclass F := by
    intro F member
    obtain ⟨deep, depends, still⟩ := inside F member
    exact same F deep still (steady.of_depends depends)
  exact ⟨l, chain, later.chain chain agree, agree⟩

theorem classOnly_eq (later : Later t u) {r : Option SymbolId} (known : t.classOnly x = .ok r) :
    u.classOnly x = t.classOnly x := by
  obtain ⟨kind, read, _⟩ := Answer.bind_eq_ok_iff.mp known
  obtain ⟨a, symbol, _⟩ := Answer.bind_eq_ok_iff.mp read
  obtain ⟨b, symbol', kept⟩ := later.symbol symbol
  rw [classOnly, classOnly, kind_of_symbol symbol, kind_of_symbol symbol', kept.kind]

/-- The superclass of a class is the same as before when no class that it depends on was
affected. The induction is on how deep the class lies: to look for its superclass, only
classes less deep are asked. -/
theorem superclass (later : Later t u) (lies : t.Lies d D)
    (still : ∀ n s, u.Seeks D n s → t.Seeks D n s) (steady : Steady t u D) :
    u.superclass D = t.superclass D := by
  induction d generalizing D with
  | zero => exact absurd lies.pos (Nat.lt_irrefl 0)
  | succ d ih =>
    by_cases affected : Taken t u D ∨ Attached t u D
    · exact steady D .refl affected
    have given := lies.given
    by_cases idle : ∀ n s, ¬ t.Seeks D n s
    · rw [later.before.superclass_of_idle given idle,
        later.after.superclass_of_idle (later.hasSymbol given)
          fun n s seeks => idle n s (still n s seeks)]
    push Not at idle
    obtain ⟨n, s, seeks⟩ := idle
    obtain ⟨path, walk⟩ := later.before.rooted (later.before.hasScope_of_seeks seeks)
    -- the classes that are asked have the chains that they had
    have answers : ∀ before q after, path = before ++ q :: after →
        (∀ o ∈ before, t.answerAt n o = .ok none) →
        ∃ r r', t.answerAt n q = .ok r ∧ u.answerAt n q = .ok r' ∧ FoundLater t u n r r' := by
      rintro before q after rfl silent
      obtain ⟨c, read⟩ := hasScope_iff.mp (hasScope_of_mem_walk walk (show q ∈ _ by simp))
      refine later.answerAt read fun E owner aggregate own => ?_
      have asks : t.Asks D E :=
        ⟨n, s, before, q, after, c, seeks, walk, silent, read, owner, aggregate, own⟩
      have deep := asks.lies later.before lies
      have unmoved : ¬ DefinedSince t u E := fun since =>
        affected (.inr (later.attached_of_definedSince asks since))
      obtain ⟨l, chain, chain', _⟩ := later.chain_of_lies deep
        (fun n s => later.of_seeks deep.given unmoved) (steady.of_depends (.single (.inr asks)))
        fun F => ih
      exact ⟨l, chain, chain'⟩
    obtain ⟨r, r', found, found', same | ⟨nothing, root, o, last, moved⟩⟩ :=
      later.resolveName walk answers
    · rcases same with rfl | ⟨x, rfl, since, _⟩
      · obtain ⟨above, known, _⟩ := later.before.settles.answers given
        rw [later.after.superclass_of_seeks (later.seeks seeks), found']
        rw [later.before.superclass_of_seeks seeks, found] at known ⊢
        cases r' with
        | none => rfl
        | some x => exact later.classOnly_eq known
      · exact absurd (.inl ⟨n, s, x, seeks, found', since⟩) affected
    · have root' := outermost_of_walk walk last
      exact absurd (.inr ⟨n, s, root, o, seeks, nothing ▸ found, root', moved⟩) affected

/-- All superclasses of a class are the same as before when no class that it depends on was
affected. -/
theorem chain_of_steady (later : Later t u) (given : t.HasSymbol C)
    (still : ∀ n s, u.Seeks C n s → t.Seeks C n s) (steady : Steady t u C) :
    ∃ l, t.chain C = .ok l ∧ u.chain C = .ok l ∧ ∀ F ∈ l, u.superclass F = t.superclass F := by
  rcases later.before.depth given with ⟨bodiless, _⟩ | ⟨d, _, lies⟩
  · have bodiless' := (later.body?_eq given).trans bodiless
    have none : t.superclass C = .ok none := by
      rw [later.before.superclass_eq given, superclassVia_of_body_none bodiless]
    have none' : u.superclass C = .ok Option.none := by
      rw [later.after.superclass_eq (later.hasSymbol given), superclassVia_of_body_none bodiless']
    refine ⟨[C], chain_of_superclass_none none, chain_of_superclass_none none', fun F member => ?_⟩
    rw [List.mem_singleton.mp member, none, none']
  · exact later.chain_of_lies lies still steady fun F => later.superclass

end Later

end Table

end Scoping
