import Scoping.Proofs.Forest
import Scoping.Proofs.Keeping
import Scoping.Proofs.Visible

/-!
# Every operation is carried out

An operation that keeps the terms is answered: it is refused or it leads to the next
table, and no fault occurs on the way. In particular a definition that was admitted always
ends, since the slot of a member is worked out by look-ups that have answers also when
superclasses go round in a circle.
-/

namespace Scoping

/-- A computation has a value when its first step has one and so has the rest behind it. -/
theorem Answer.exists_bind {α β : Type} {x : Answer α} {f : α → Answer β}
    (first : ∃ a, x = .ok a) (rest : ∀ a, x = .ok a → ∃ b, f a = .ok b) :
    ∃ b, (x >>= f) = .ok b := by
  obtain ⟨a, rfl⟩ := first
  exact rest a rfl

namespace Table

variable {t u : Table} {s : ScopeId} {x D : SymbolId} {a : Symbol} {c : Scope} {n : Name}

theorem exists_symbolName (given : t.HasSymbol x) : ∃ text, t.symbolName x = .ok text := by
  obtain ⟨a, read⟩ := hasSymbol_iff.mp given
  exact ⟨t.nameText a.name, by rw [symbolName, name, read]; rfl⟩

namespace Consistent

theorem exists_scopeName (consistent : t.Consistent) (given : t.HasScope s) :
    ∃ text, t.scopeName s = .ok text := by
  obtain ⟨c, read⟩ := hasScope_iff.mp given
  rw [scopeName, scopeKind, read]
  simp only [Answer.ok_bind, Answer.pure_eq_ok]
  cases kind : c.kind with
  | body owner =>
    have owned : c.owner? = some owner := by rw [Scope.owner?, kind, ScopeKind.owner?]
    exact exists_symbolName (consistent.hasSymbol_of_owned read owned)
  | _ => exact ⟨_, rfl⟩

theorem exists_chain (consistent : t.Consistent) (given : t.HasSymbol x) :
    ∃ l, t.chain x = .ok l ∧ ∀ y ∈ l, t.HasSymbol y := consistent.settles.chainVia given

theorem exists_superclass (consistent : t.Consistent) (given : t.HasSymbol x) :
    ∃ r, t.superclass x = .ok r ∧ ∀ above, r = some above → t.HasSymbol above :=
  consistent.settles.answers given

theorem exists_memberNamed (consistent : t.Consistent) (given : t.HasSymbol x) (n : Name) :
    ∃ r, t.memberNamed x n = .ok r ∧ ∀ m, r = some m → t.HasSymbol m := by
  obtain ⟨r, found, sound⟩ := consistent.settles.memberVia consistent (n := n) given
  refine ⟨r, found, fun m result => ?_⟩
  obtain ⟨_, _, _, _, _, scope, known⟩ := sound m result
  exact consistent.hasSymbol_of_found scope known

/-! ### Refusals -/

theorem exists_missingSuperclass? (consistent : t.Consistent) (given : t.HasSymbol x) :
    ∃ r, t.missingSuperclass? x = .ok r := by
  obtain ⟨l, chain, members⟩ := consistent.exists_chain given
  have last : t.HasSymbol (l.getLastD x) := by
    rw [List.getLastD_eq_getLast?]
    cases final : l.getLast? with
    | none => exact given
    | some z => exact members z (List.mem_of_getLast? final)
  obtain ⟨a, read⟩ := hasSymbol_iff.mp last
  obtain ⟨r, above, _⟩ := consistent.exists_superclass last
  obtain ⟨text, called⟩ := exists_symbolName last
  rw [missingSuperclass?]
  simp only [chain, superclassName?, read, above, called, Answer.ok_bind, Answer.pure_eq_ok]
  split <;> exact ⟨_, rfl⟩

theorem exists_ownerRefusal? (consistent : t.Consistent) (given : t.HasSymbol D) (a : Symbol) :
    ∃ r, t.ownerRefusal? D a = .ok r := by
  obtain ⟨b, read⟩ := hasSymbol_iff.mp given
  obtain ⟨text, called⟩ := exists_symbolName given
  obtain ⟨missing, asked⟩ := consistent.exists_missingSuperclass? given
  rw [ownerRefusal?]
  simp only [kind_of_symbol read, called, asked, Answer.ok_bind]
  split
  · exact ⟨_, rfl⟩
  · split
    · cases missing <;> exact ⟨_, rfl⟩
    · exact ⟨_, rfl⟩

theorem exists_cycleRefusal? (consistent : t.Consistent) (given : t.HasScope s) (a : Symbol) :
    ∃ r, t.cycleRefusal? s a = .ok r := by
  obtain ⟨path, walk⟩ := consistent.rooted given
  rw [cycleRefusal?, enclosingPath_eq_ok_iff.mpr walk]
  cases a.form.body? with
  | none => exact ⟨none, rfl⟩
  | some body =>
    simp only [Answer.ok_bind]
    split <;> exact ⟨_, rfl⟩

theorem exists_refusal? (consistent : t.Consistent) (scope : t.HasScope s)
    (symbol : t.HasSymbol x) : ∃ r, t.refusal? s x = .ok r := by
  obtain ⟨a, read⟩ := hasSymbol_iff.mp symbol
  obtain ⟨c, entry⟩ := hasScope_iff.mp scope
  rw [refusal?]
  simp only [read, Answer.ok_bind]
  cases home : a.owningScope? with
  | some r =>
    exact Answer.exists_bind
      (consistent.exists_scopeName (consistent.hasScope_of_home read home)) fun _ _ => ⟨_, rfl⟩
  | none =>
    simp only [entry, Answer.ok_bind]
    split
    · exact Answer.exists_bind (consistent.exists_scopeName scope) fun _ _ => ⟨_, rfl⟩
    · cases owned : c.owner? with
      | none => exact consistent.exists_cycleRefusal? scope a
      | some owner =>
        refine Answer.exists_bind (consistent.exists_ownerRefusal?
          (consistent.hasSymbol_of_owned entry owned) a) fun refusal _ => ?_
        cases refusal with
        | none => exact consistent.exists_cycleRefusal? scope a
        | some refusal => exact ⟨_, rfl⟩

/-! ### Slots -/

theorem exists_fieldBase (consistent : t.Consistent) (given : t.HasSymbol D) :
    ∃ slot, t.fieldBase D = .ok slot := by
  obtain ⟨r, above, known⟩ := consistent.exists_superclass given
  rw [fieldBase]
  simp only [above, Answer.ok_bind]
  split
  · rename_i P layout
    obtain ⟨l, chain, _⟩ := consistent.exists_chain (known P rfl)
    have shown := consistent.visibleMembers (known P rfl) chain .field
    exact ⟨_, by rw [fieldCount, fields, shown]; rfl⟩
  · exact ⟨0, rfl⟩

theorem exists_methodBase (consistent : t.Consistent) (given : t.HasSymbol D) :
    ∃ slot, t.methodBase D = .ok slot := by
  obtain ⟨r, above, known⟩ := consistent.exists_superclass given
  cases r with
  | none => exact ⟨0, by rw [Table.methodBase, above]; rfl⟩
  | some P =>
    obtain ⟨l, chain, _⟩ := consistent.exists_chain (known P rfl)
    have shown := consistent.visibleMembers (known P rfl) chain .method
    exact ⟨_, consistent.methodBase above shown⟩

theorem exists_methodNamed (consistent : t.Consistent) (given : t.HasSymbol x) (n : Name) :
    ∃ r, t.methodNamed x n = .ok r ∧ ∀ m, r = some m → t.HasSymbol m := by
  obtain ⟨found, asked, sound⟩ := consistent.exists_memberNamed given n
  rw [Table.methodNamed, asked]
  cases found with
  | none => exact ⟨none, rfl, by simp⟩
  | some m =>
    obtain ⟨b, read⟩ := hasSymbol_iff.mp (sound m rfl)
    refine ⟨if b.kind = .method then some m else none, ?_, fun y result => ?_⟩
    · simp only [Answer.ok_bind, kindOnly, kind_of_symbol read, Answer.pure_eq_ok]
    · split at result <;> cases result
      exact sound m rfl

theorem exists_overriddenSlot? (consistent : t.Consistent) (given : t.HasSymbol D) (n : Name) :
    ∃ r, t.overriddenSlot? D n = .ok r := by
  obtain ⟨r, above, known⟩ := consistent.exists_superclass given
  rw [overriddenSlot?, above]
  cases r with
  | none => exact ⟨none, rfl⟩
  | some P =>
    obtain ⟨found, asked, sound⟩ := consistent.exists_methodNamed (known P rfl) n
    simp only [Answer.ok_bind, asked]
    cases found with
    | none => exact ⟨none, rfl⟩
    | some m => exact ⟨t.slotAt m, slot?_eq (sound m rfl)⟩

theorem exists_assignSlot (consistent : t.Consistent) (owner : t.HasSymbol D)
    (member : t.HasSymbol x) : ∃ u, t.assignSlot D x = .ok u := by
  obtain ⟨a, read⟩ := hasSymbol_iff.mp member
  obtain ⟨b, read'⟩ := hasSymbol_iff.mp owner
  rw [assignSlot]
  simp only [read, Answer.ok_bind]
  cases a.kind with
  | field =>
    refine Answer.exists_bind ?_ fun slot _ => ⟨_, rfl⟩
    rw [nextFieldSlot]
    simp only [read', Answer.ok_bind]
    cases b.form.layout?.bind Layout.nextField with
    | none => exact consistent.exists_fieldBase owner
    | some slot => exact ⟨slot, rfl⟩
  | method =>
    refine Answer.exists_bind (consistent.exists_overriddenSlot? owner a.name) fun taken _ => ?_
    cases taken with
    | some slot => exact ⟨_, rfl⟩
    | none =>
      refine Answer.exists_bind ?_ fun slot _ => ⟨_, rfl⟩
      rw [nextMethodSlot]
      simp only [read', Answer.ok_bind]
      cases b.form.layout?.bind Layout.nextMethod with
      | none => exact consistent.exists_methodBase owner
      | some slot => exact ⟨slot, rfl⟩
  | _ => exact ⟨t, rfl⟩

theorem exists_assignSlotIn (consistent : t.Consistent) (scope : t.HasScope s)
    (member : t.HasSymbol x) : ∃ u, t.assignSlotIn s x = .ok u := by
  obtain ⟨c, entry⟩ := hasScope_iff.mp scope
  rw [assignSlotIn, scopeOwner?_of_scope entry]
  cases owned : c.owner? with
  | none => exact ⟨t, rfl⟩
  | some owner =>
    obtain ⟨b, read, _⟩ := consistent.owner entry owned
    simp only [Answer.ok_bind, kind_of_symbol read]
    split
    · exact consistent.exists_assignSlot (hasSymbol_iff.mpr ⟨b, read⟩) member
    · exact ⟨t, rfl⟩

/-! ### Operations -/

/-- A definition is refused or carried out. -/
theorem exists_define (consistent : t.Consistent) (scope : t.HasScope s)
    (symbol : t.HasSymbol x) : ∃ result, t.define s x = .ok result := by
  obtain ⟨refusal, checked⟩ := consistent.exists_refusal? scope symbol
  rw [define, checked]
  cases refusal with
  | some refusal => exact ⟨.error refusal, rfl⟩
  | none =>
    obtain ⟨a, c, admits⟩ := refusal?_eq_none checked
    have between := consistent.placed admits
    have scope' : (t.placed s x a c).HasScope s := by rwa [HasScope, size_scopes_placed]
    have symbol' : (t.placed s x a c).HasSymbol x := by rwa [HasSymbol, size_symbols_placed]
    obtain ⟨u, assigned⟩ := between.exists_assignSlotIn scope' symbol'
    refine ⟨.ok u, ?_⟩
    simp only [Answer.ok_bind, place_eq_ok admits.symbol admits.scope, assigned,
      Answer.pure_eq_ok]

end Consistent

theorem exists_declare {text : String} (named : text ≠ "") (t : Table) (spec : Spec) :
    ∃ x u, t.declare text spec = .ok (x, u) := by
  rw [declare, if_neg named]
  exact ⟨_, _, rfl⟩

theorem exists_setTypeIndex (given : t.HasSymbol x) (index : Nat) :
    ∃ u, t.setTypeIndex x index = .ok u := by
  obtain ⟨a, read⟩ := hasSymbol_iff.mp given
  rw [setTypeIndex, asType?, read]
  cases kind : a.form.asType? with
  | none => exact ⟨t, by simp [kind]⟩
  | some type => exact ⟨t.numberType type index, by simp [kind]⟩

theorem exists_openBlock (given : t.HasScope s) : ∃ block u, t.openBlock s = .ok (block, u) := by
  obtain ⟨c, read⟩ := hasScope_iff.mp given
  have still : (t.openScope s).2.scope s = .ok c :=
    (scope_push_iff (d := { kind := .block, enclosing := some s }) rfl).mpr (.inl read)
  exact ⟨_, _, by rw [openBlock]; simp only [still]; rfl⟩

theorem Consistent.exists_nest {parent child : ScopeId} (consistent : t.Consistent)
    (outer : t.HasScope parent) (inner : t.HasScope child) :
    ∃ result, t.nest parent child = .ok result := by
  obtain ⟨c, read⟩ := hasScope_iff.mp inner
  obtain ⟨d, read'⟩ := hasScope_iff.mp outer
  have checked : ∃ refusal, t.nestRefusal? parent child = .ok refusal := by
    rw [nestRefusal?, read]
    simp only [Answer.ok_bind]
    cases owned : c.owner? with
    | some owner =>
      exact Answer.exists_bind (exists_symbolName (consistent.hasSymbol_of_owned read owned))
        fun _ _ => ⟨_, rfl⟩
    | none =>
      simp only []
      split
      · exact ⟨none, rfl⟩
      · exact Answer.exists_bind (consistent.exists_scopeName inner) fun _ _ =>
          Answer.exists_bind (consistent.exists_scopeName outer) fun _ _ => ⟨_, rfl⟩
  refine Answer.exists_bind checked fun refusal _ => ?_
  cases refusal with
  | some refusal => exact ⟨_, rfl⟩
  | none => exact ⟨_, by simp only [read']; rfl⟩

theorem exists_setType (given : t.HasSymbol x) (type : TypeId) :
    ∃ result, t.setType x type = .ok result := by
  obtain ⟨a, read⟩ := hasSymbol_iff.mp given
  rw [setType, read]
  simp only [Answer.ok_bind]
  split <;> exact ⟨_, rfl⟩

theorem exists_defineBuiltinsFrom {names : List String} (both : t.Consistent ∧ t.Forest)
    (named : "" ∉ names) (index : Nat) :
    ∃ outcome u, t.defineBuiltinsFrom index names = .ok (outcome, u) := by
  induction names generalizing t index with
  | nil => exact ⟨_, _, rfl⟩
  | cons text rest ih =>
    rw [List.mem_cons, not_or] at named
    obtain ⟨x, v, declared⟩ := exists_declare (Ne.symm named.1) t .primitiveType
    have change : Change (fun _ => True) t v := .declare declared
    have both' := change.changes.forest both
    obtain ⟨c, root, _⟩ := both'.2.root
    have new : v.HasSymbol x := by
      obtain ⟨rfl, _, name, form, pushed, _⟩ := declare_eq_ok declared
      exact hasSymbol_iff.mpr ⟨_, (symbol_push_iff pushed).mpr (.inr ⟨rfl, rfl⟩)⟩
    obtain ⟨result, defined⟩ := both'.1.exists_define (hasScope_iff.mpr ⟨c, root⟩) new
    rw [defineBuiltinsFrom, declared]
    simp only [Answer.ok_bind, defined]
    cases result with
    | error refusal => exact ⟨_, _, rfl⟩
    | ok w =>
      have changes : Changes (fun _ => True) v w :=
        (Change.define defined fun _ _ => trivial).changes
      have given := (Keeps.define both'.1 defined).hasSymbol new
      obtain ⟨w', numbered⟩ := exists_setTypeIndex given index
      have both'' := (changes.trans (changes_of_setTypeIndex numbered)).forest both'
      obtain ⟨outcome, u, done⟩ := ih both'' named.2 (index + 1)
      exact ⟨_, u, by simp only [numbered, done, Answer.ok_bind]; rfl⟩

/-- Every operation that keeps the terms is refused or carried out. -/
theorem Reachable.exists_apply {op : Operation} (reachable : t.Reachable) (proper : op.Proper t) :
    ∃ outcome u, t.apply op = .ok (outcome, u) := by
  have consistent := reachable.consistent
  cases op with
  | declare text spec =>
    obtain ⟨x, u, declared⟩ := exists_declare proper t spec
    exact ⟨_, u, by rw [apply, declared]; rfl⟩
  | openScope s => exact ⟨_, _, rfl⟩
  | openBlock s =>
    obtain ⟨block, u, opened⟩ := exists_openBlock proper
    exact ⟨_, u, by rw [apply, opened]; rfl⟩
  | define s x =>
    obtain ⟨result, defined⟩ := consistent.exists_define proper.1 proper.2
    exact ⟨_, _, by rw [apply, defined]; rfl⟩
  | defineBuiltins names =>
    obtain ⟨outcome, u, defined⟩ :=
      exists_defineBuiltinsFrom ⟨consistent, reachable.forest⟩ proper 1
    exact ⟨_, u, by rw [apply, defineBuiltins, defined]; rfl⟩
  | nest parent child =>
    obtain ⟨result, nested⟩ := consistent.exists_nest proper.1 proper.2
    exact ⟨_, _, by rw [apply, nested]; rfl⟩
  | setType x type =>
    obtain ⟨result, set⟩ := exists_setType proper type
    exact ⟨_, _, by rw [apply, set]; rfl⟩
  | setDefSite x site =>
    obtain ⟨a, read⟩ := hasSymbol_iff.mp proper
    exact ⟨_, _, by rw [apply, setDefSite, read]; rfl⟩
  | setTypeIndex x index =>
    obtain ⟨u, set⟩ := exists_setTypeIndex proper index
    exact ⟨_, u, by rw [apply, set]; rfl⟩
  | numberType type index => exact ⟨_, _, rfl⟩
  | intern text => exact ⟨_, _, rfl⟩
  | requestType r => exact ⟨_, _, rfl⟩

end Table

end Scoping
