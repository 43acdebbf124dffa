import Scoping.Proofs.Dependence
import Scoping.Proofs.Orbit

/-!
# Classes that extend themselves

The superclass of a class is looked up from the scope where the class is defined. If its name
is that of the class, then the look-up ends at once with the class itself, whatever else is
called so further out. The scope that is asked after the body of such a class is the same
body again, and in no other way a scope comes right after itself.
-/

namespace Scoping

theorem Walk.next_ne_self {α : Type} {next : α → Answer (Option α)} {x : α} {l : List α}
    (walk : Walk next x l) : next x ≠ .ok (some x) := by
  intro back
  cases walk with
  | stop ends =>
    rw [ends] at back
    cases back
  | step goes rest =>
    cases Except.ok.inj (goes.symm.trans back)
    exact (List.nodup_cons.mp (Walk.step goes rest).nodup).1 rest.mem_start

namespace Table

variable {t : Table} {C P : SymbolId} {n : Name} {s q : ScopeId}

/-- The class is defined, and its superclass goes by the name that it has itself. -/
def ExtendsOwnName (t : Table) (C : SymbolId) : Prop :=
  ∃ n s, t.Seeks C n s ∧ t.name C = .ok n

namespace Consistent

/-- In the scope where a symbol is defined its name finds the symbol. -/
theorem resolveName_here (consistent : t.Consistent) {a : Symbol} (symbol : t.symbol C = .ok a)
    (home : a.owningScope? = some s) : t.resolveName s a.name = .ok (some C) := by
  obtain ⟨c, read, _⟩ := consistent.home symbol home
  have found : c.find? a.name = some C :=
    (consistent.find?_eq_some_iff read).mpr ⟨a, symbol, home, rfl⟩
  have answers : t.answerVia t.superclass c a.name = .ok (some C) := by
    by_cases aggregate : ∃ E, c.owner? = some E ∧ t.IsAggregate E
    · obtain ⟨E, owner, aggregate⟩ := aggregate
      rw [(consistent.askedFor_aggregate read owner aggregate).2,
        consistent.memberNamed_own read owner found]
    · rw [(consistent.askedFor_alone read fun E owner inside => aggregate ⟨E, owner, inside⟩).2,
        found]
  rw [consistent.resolveName_eq read, answerAt, read, Answer.ok_bind, answers]
  rfl

theorem superclass_self_iff (consistent : t.Consistent) :
    t.superclass C = .ok (some C) ↔ t.ExtendsOwnName C := by
  constructor
  · intro above
    obtain ⟨n, s, seeks, found⟩ := consistent.exists_seeks above
    obtain ⟨a, _, symbol, name, _⟩ :=
      consistent.placed_of_resolveName (consistent.hasScope_of_seeks seeks) found
    refine ⟨n, s, seeks, ?_⟩
    rw [Table.name, symbol, ← name]
    rfl
  · rintro ⟨n, s, seeks, called⟩
    obtain ⟨a, symbol, superclass, home⟩ := id seeks
    obtain ⟨a', symbol', name⟩ := Answer.bind_eq_ok_iff.mp called
    cases Except.ok.inj (symbol.symm.trans symbol')
    cases name
    have isClass : t.classOnly C = .ok (some C) := by
      have kind : a.kind = .classType := by
        rw [Symbol.kind]
        cases form : a.form with
        | classType layout superclass => rfl
        | _ => rw [form] at superclass; cases superclass
      rw [classOnly, kind_of_symbol symbol, kind]
      rfl
    rw [consistent.superclass_of_seeks seeks, consistent.resolveName_here symbol home]
    exact isClass

/-- What is asked after the body of a symbol: the body of another class, if that is its
superclass, and otherwise the scope around it, unless the class extends its own name. -/
theorem parentScope?_of_body (consistent : t.Consistent) (body : t.body? C = .ok (some s))
    (other : ¬ t.ExtendsOwnName C) :
    (t.superclass C = .ok none ∧ t.parentScope? s = t.enclosing? s) ∨
      ∃ P q, t.superclass C = .ok (some P) ∧ P ≠ C ∧ t.body? P = .ok (some q) ∧ q ≠ s ∧
        t.parentScope? s = .ok (some q) := by
  obtain ⟨a, symbol, _⟩ := body?_eq_ok_iff.mp body
  obtain ⟨r, above, _⟩ := consistent.exists_superclass (hasSymbol_iff.mpr ⟨a, symbol⟩)
  cases r with
  | none =>
    obtain ⟨_, home, known, around⟩ := consistent.body_links body
    exact .inl ⟨above, by rw [consistent.parentScope?_of_superclass_none body above, known, around]⟩
  | some P =>
    obtain ⟨q, body'⟩ := consistent.body?_of_aggregate (consistent.isAggregate_superclass above)
    have apart : P ≠ C := by
      rintro rfl
      exact other (consistent.superclass_self_iff.mp above)
    refine .inr ⟨P, q, above, apart, body', ?_,
      consistent.parentScope?_of_superclass body above body'⟩
    rintro rfl
    have owners := (consistent.body_links body').1.symm.trans (consistent.body_links body).1
    exact apart (Option.some.inj (Except.ok.inj owners))

theorem enclosing?_ne_self (consistent : t.Consistent) : t.enclosing? s ≠ .ok (some s) := by
  intro back
  obtain ⟨c, read, _⟩ := enclosing?_eq_ok_iff.mp back
  obtain ⟨path, walk⟩ := consistent.rooted (hasScope_iff.mpr ⟨c, read⟩)
  exact walk.next_ne_self back

theorem parentScope?_self_iff (consistent : t.Consistent) :
    t.parentScope? s = .ok (some s) ↔
      ∃ C, t.scopeOwner? s = .ok (some C) ∧ t.ExtendsOwnName C := by
  constructor
  · intro back
    obtain ⟨c, read, _⟩ := Answer.bind_eq_ok_iff.mp back
    cases owned : c.owner? with
    | none =>
      rw [parentScope?, read] at back
      simp only [Answer.ok_bind, owned] at back
      exact absurd ((enclosing?_of_scope read).trans back) consistent.enclosing?_ne_self
    | some C =>
      obtain ⟨a, symbol, inside⟩ := consistent.owner read owned
      have body := body?_eq_ok_iff.mpr ⟨a, symbol, inside⟩
      refine ⟨C, (scopeOwner?_of_scope read).trans (congrArg Except.ok owned), ?_⟩
      by_contra other
      rcases consistent.parentScope?_of_body body other with ⟨_, outer⟩ | ⟨P, q, _, _, _, apart, up⟩
      · exact consistent.enclosing?_ne_self (outer.symm.trans back)
      · exact apart (Option.some.inj (Except.ok.inj (up.symm.trans back)))
  · rintro ⟨C, owner, own⟩
    obtain ⟨c, read, owned⟩ := Answer.bind_eq_ok_iff.mp owner
    obtain ⟨a, symbol, inside⟩ := consistent.owner read (Except.ok.inj owned)
    have body := body?_eq_ok_iff.mpr ⟨a, symbol, inside⟩
    exact consistent.parentScope?_of_superclass body (consistent.superclass_self_iff.mpr own) body

end Consistent

/-- A class is its own superclass just when it extends its own name, and a scope is asked
after itself just when it is the body of such a class. After the body of any other symbol
the body of another class is asked, its superclass, or else the scope around it. -/
theorem Reachable.comes_after_itself_iff (reachable : t.Reachable) :
    (∀ C, t.superclass C = .ok (some C) ↔ t.ExtendsOwnName C) ∧
    (∀ s, t.parentScope? s = .ok (some s) ↔
      ∃ C, t.scopeOwner? s = .ok (some C) ∧ t.ExtendsOwnName C) ∧
    ∀ C s, t.body? C = .ok (some s) → ¬ t.ExtendsOwnName C →
      (t.superclass C = .ok none ∧ t.parentScope? s = t.enclosing? s) ∨
      ∃ P q, t.superclass C = .ok (some P) ∧ P ≠ C ∧ t.body? P = .ok (some q) ∧ q ≠ s ∧
        t.parentScope? s = .ok (some q) := by
  have consistent := reachable.consistent
  exact ⟨fun C => consistent.superclass_self_iff, fun s => consistent.parentScope?_self_iff,
    fun C s => consistent.parentScope?_of_body⟩

/-- A class `A`; in its body a class of the same name, which extends `A`; and a class `B`
beside it that extends `A` as well. -/
def namesakes : Run where
  config := {}
  operations := [
    .declare "A" (.classType none), .define .global ⟨0⟩,
    .declare "A" (.classType (some "A")), .define ⟨2⟩ ⟨1⟩,
    .declare "B" (.classType (some "A")), .define .global ⟨2⟩]
  accepted := by decide +kernel

/-- The inner class finds itself and not the outer one, `B` finds the outer one. -/
theorem namesakes_come_after_themselves : namesakes.final.Reachable ∧
    namesakes.final.superclass ⟨1⟩ = .ok (some ⟨1⟩) ∧
    namesakes.final.parentScope? ⟨3⟩ = .ok (some ⟨3⟩) ∧
    ¬ namesakes.final.ExtendsOwnName ⟨2⟩ ∧
    namesakes.final.parentScope? ⟨4⟩ = .ok (some ⟨2⟩) := by
  have reachable := namesakes.reachable namesakes.operations.length
  obtain ⟨classes, scopes, others⟩ := Reachable.comes_after_itself_iff reachable
  have inner : namesakes.final.superclass ⟨1⟩ = .ok (some ⟨1⟩) := by decide +kernel
  have owner : namesakes.final.scopeOwner? ⟨3⟩ = .ok (some ⟨1⟩) := by decide +kernel
  have above : namesakes.final.superclass ⟨2⟩ = .ok (some ⟨0⟩) := by decide +kernel
  have other : ¬ namesakes.final.ExtendsOwnName ⟨2⟩ := by
    intro own
    cases above.symm.trans ((classes ⟨2⟩).mpr own)
  have back := (scopes ⟨3⟩).mpr ⟨⟨1⟩, owner, (classes ⟨1⟩).mp inner⟩
  refine ⟨reachable, inner, back, other, ?_⟩
  rcases others ⟨2⟩ ⟨4⟩ (by decide +kernel) other with ⟨top, _⟩ | ⟨P, q, up, _, body, _, next⟩
  · cases above.symm.trans top
  · cases above.symm.trans up
    have body' : namesakes.final.body? ⟨0⟩ = .ok (some ⟨2⟩) := by decide +kernel
    cases body'.symm.trans body
    exact next

/-- A class in the global scope that names itself as its superclass. -/
def ownSuperclass : Run where
  config := {}
  operations := [.declare "A" (.classType (some "A")), .define .global ⟨0⟩]
  accepted := by decide +kernel

/-- Not every scope is followed by another one: the class is its own superclass, and its body
is asked after itself, not the global scope around it. -/
theorem parentScope?_not_always_another : ownSuperclass.final.Reachable ∧
    ownSuperclass.final.kind ⟨0⟩ = .ok .classType ∧
    ownSuperclass.final.superclass ⟨0⟩ = .ok (some ⟨0⟩) ∧
    ownSuperclass.final.enclosing? ⟨2⟩ = .ok (some .global) ∧
    ownSuperclass.final.parentScope? ⟨2⟩ = .ok (some ⟨2⟩) :=
  ⟨ownSuperclass.reachable _, by decide +kernel, by decide +kernel, by decide +kernel,
    by decide +kernel⟩

end Table

end Scoping
