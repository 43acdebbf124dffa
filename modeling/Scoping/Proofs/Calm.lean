import Scoping.Proofs.Joining

/-!
# Calm changes

Only a field or method that is defined in a struct or class disturbs slots. All other
changes are calm, and so is every operation that defines nothing but primitive types.
-/

namespace Scoping

namespace Table

variable {t u : Table} {s : ScopeId} {x D : SymbolId} {a : Symbol} {c : Scope}
  {kinds : Kind → Prop}

/-- Where the contents stay the same, so do the members of each kind. -/
theorem Consistent.calm (consistent : t.Consistent) (config : u.config = t.config)
    (name : ∀ {x}, t.HasSymbol x → u.nameAt x = t.nameAt x)
    (kind : ∀ {x}, t.HasSymbol x → u.kindAt x = t.kindAt x)
    (superclass : ∀ {x}, t.HasSymbol x → u.superclassAt x = t.superclassAt x)
    (contents : ∀ D, u.contents D = t.contents D) (slot : ∀ x, u.slotAt x = t.slotAt x)
    (next : ∀ k x, u.nextAt k x = t.nextAt k x) : Calm t u := by
  refine ⟨⟨config, name, kind, superclass, ?_⟩, slot, next, ?_⟩
  · intro D m member
    rwa [contents]
  · intro k D _
    rw [own, own, contents]
    refine List.filter_congr fun m member => ?_
    rw [kind (consistent.hasSymbol_of_mem member)]

theorem Consistent.calm_of_sameShape (consistent : t.Consistent) (same : SameShape t u)
    (config : u.config = t.config) (slot : ∀ x, u.slotAt x = t.slotAt x)
    (next : ∀ k x, u.nextAt k x = t.nextAt k x) : Calm t u :=
  consistent.calm config (fun _ => same.nameAt_eq) (fun _ => same.kindAt_eq)
    (fun _ => same.superclassAt_eq) same.contents_eq slot next

theorem slot?_withDeclaredType (form : Form) (type : TypeId) :
    (form.withDeclaredType type).slot? = form.slot? := by cases form <;> rfl

theorem layout?_withDeclaredType (form : Form) (type : TypeId) :
    (form.withDeclaredType type).layout? = form.layout? := by cases form <;> rfl

/-- A new scope has no members. -/
theorem membersAt_push {d : Scope} (pushed : u.scopes = t.scopes.push d) (empty : d.members = #[])
    (s : ScopeId) : u.membersAt s = t.membersAt s := by
  rw [membersAt, membersAt, pushed, Array.getElem?_push]
  by_cases last : s.index = t.scopes.size
  · have beyond : t.scopes[s.index]? = none := Array.getElem?_eq_none (Nat.le_of_eq last.symm)
    rw [if_pos last, beyond]
    simp only [empty]
  · rw [if_neg last]

/-- What a new symbol holds, and where its body is listed. -/
theorem entry_declare {name : Name} {form : Form}
    (pushed : u.symbols = t.symbols.push { name, form }) (y : SymbolId) :
    u.symbols[y.index]? = t.symbols[y.index]? ∨
      t.symbols[y.index]? = none ∧ u.symbols[y.index]? = some { name, form } := by
  rw [pushed, Array.getElem?_push]
  by_cases last : y.index = t.symbols.size
  · exact .inr ⟨Array.getElem?_eq_none (Nat.le_of_eq last.symm), if_pos last⟩
  · exact .inl (if_neg last)

theorem contents_declare {spec : Spec} {name : Name} {form : Form}
    (pushed : u.symbols = t.symbols.push { name, form }) (fresh : Fresh t spec form u.scopes)
    (D : SymbolId) : u.contents D = t.contents D := by
  have members : ∀ s, u.membersAt s = t.membersAt s := by
    rcases fresh.body with ⟨_, same⟩ | ⟨_, more⟩
    · intro s
      rw [membersAt, membersAt, same]
    · exact membersAt_push more rfl
  rcases entry_declare pushed D with same | ⟨absent, present⟩
  · rw [contents, contents, layoutAt, layoutAt, same]
    simp only [members]
  · rw [contents, contents, layoutAt, layoutAt, absent, present]
    cases has : form.layout? with
    | none => simp [has]
    | some layout =>
      -- the body of a new struct or class is the scope behind the old ones
      have body := body?_of_layout? has
      rcases fresh.body with ⟨none, _⟩ | ⟨some, _⟩
      · rw [none] at body
        cases body
      · rw [some, Option.some.injEq] at body
        simp only [Option.bind_some, has, Option.bind_none, members, ← body]
        rw [membersAt]
        simp

theorem Consistent.calm_declare (consistent : t.Consistent) {text : String} {spec : Spec}
    (declared : t.declare text spec = .ok (x, u)) : Calm t u := by
  obtain ⟨_, config, name, form, pushed, fresh⟩ := declare_eq_ok declared
  have old : ∀ {y}, t.HasSymbol y → u.symbols[y.index]? = t.symbols[y.index]? := by
    intro y given
    rw [pushed, Array.getElem?_push_lt given, Array.getElem?_eq_getElem given]
  refine consistent.calm config ?_ ?_ ?_ (contents_declare pushed fresh) ?_ ?_
  · intro y given
    rw [nameAt, nameAt, old given]
  · intro y given
    rw [kindAt, kindAt, old given]
  · intro y given
    rw [superclassAt, superclassAt, old given]
  · intro y
    rcases entry_declare pushed y with same | ⟨absent, present⟩
    · rw [slotAt, slotAt, same]
    · rw [slotAt, slotAt, absent, present]
      exact fresh.unslotted
  · intro k y
    rcases entry_declare pushed y with same | ⟨absent, present⟩
    · rw [nextAt, nextAt, layoutAt, layoutAt, same]
    · rw [nextAt, nextAt, layoutAt, layoutAt, absent, present]
      cases has : form.layout? with
      | none => simp [has]
      | some layout => simpa [has] using fresh.uncounted layout has k

theorem Consistent.calm_openScope (consistent : t.Consistent) (s : ScopeId) :
    Calm t (t.openScope s).2 := by
  refine consistent.calm rfl (fun _ => rfl) (fun _ => rfl) (fun _ => rfl) ?_ (fun _ => rfl)
    fun _ _ => rfl
  intro D
  have members := membersAt_push (t := t) (u := (t.openScope s).2) rfl rfl
  rw [Table.contents, Table.contents]
  simp only [members]
  rfl

/-! ### Definitions -/

/-- A symbol of another kind joins the contents, but no list of fields or methods. -/
theorem Consistent.calm_placed (consistent : t.Consistent) (admits : Admits t s x a c)
    (plain : ¬ a.kind.Slotted ∨ ∀ D, c.owner? = some D → ¬ t.IsAggregate D) :
    Calm t (t.placed s x a c) := by
  refine ⟨consistent.grows_placed admits, fun _ => slotAt_placed,
    nextAt_eq fun _ => layoutAt_placed, ?_⟩
  intro k E slotted
  have kinds : ∀ y, (t.placed s x a c).kindAt y = t.kindAt y := fun _ => kindAt_placed
  rw [own, own]
  simp only [kinds]
  by_cases owned : c.owner? = some E
  · by_cases aggregate : t.IsAggregate E
    · rcases plain with other | outside
      · have drop : t.kindAt x ≠ some k := by
          rw [kindAt_of_symbol admits.symbol]
          rintro ⟨⟩
          exact other slotted
        rw [consistent.contents_placed admits owned aggregate, List.filter_append]
        simp [drop]
      · exact absurd aggregate (outside E owned)
    · rw [contents_of_not_aggregate (mt isAggregate_placed.mp aggregate),
        contents_of_not_aggregate aggregate]
  · rw [consistent.contents_placed_of_ne admits owned]

theorem assignSlot_of_not_slotted (read : t.symbol x = .ok a) (plain : ¬ a.kind.Slotted) :
    t.assignSlot D x = .ok t := by
  rw [assignSlot, read]
  cases kind : a.kind with
  | field => exact absurd (.inl kind) plain
  | method => exact absurd (.inr kind) plain
  | _ => simp [kind]

/-- What is no field or method, or is defined elsewhere, leaves all slots as they are. -/
theorem Consistent.calm_define (consistent : t.Consistent)
    (defined : t.define s x = .ok (.ok u))
    (plain : (∀ a, t.symbol x = .ok a → ¬ a.kind.Slotted) ∨
      ∀ c D, t.scope s = .ok c → c.owner? = some D → ¬ t.IsAggregate D) : Calm t u := by
  obtain ⟨a, c, admits, assigned⟩ := define_eq_ok defined
  have calm : Calm t (t.placed s x a c) := by
    refine consistent.calm_placed admits (plain.imp ?_ ?_)
    · exact fun other => other a admits.symbol
    · exact fun outside D owned => outside c D admits.scope owned
  have stays : (t.placed s x a c).assignSlotIn s x = .ok (t.placed s x a c) := by
    have owner : (t.placed s x a c).scopeOwner? s = .ok c.owner? := by
      rw [scopeOwner?, scope_placed admits.scope, Answer.ok_bind, owner?_placedScope]
      rfl
    rw [assignSlotIn, owner]
    cases owned : c.owner? with
    | none => rfl
    | some D =>
      obtain ⟨b, read, _⟩ := (consistent.placed admits).owner (scope_placed admits.scope)
        (owner?_placedScope.trans owned)
      have kind := kind_of_symbol read
      by_cases aggregate : b.kind.isAggregate = true
      · rcases plain with other | outside
        · have same : (placedSymbol s x c x a).kind = a.kind := by
            rw [Symbol.kind, form_placedSymbol, Symbol.kind]
          have plain' : ¬ (placedSymbol s x c x a).kind.Slotted := by
            rw [same]
            exact other a admits.symbol
          simp only [Answer.ok_bind, kind, aggregate, if_true,
            assignSlot_of_not_slotted (symbol_placed admits.symbol) plain']
        · have inside : (t.placed s x a c).IsAggregate D := ⟨b, read, aggregate⟩
          exact absurd (isAggregate_placed.mp inside) (outside c D admits.scope owned)
      · simp [kind, aggregate]
  cases Except.ok.inj (stays.symm.trans assigned)
  exact calm

theorem Consistent.calm_change (consistent : t.Consistent) (change : Change kinds t u)
    (plain : ∀ k, kinds k → ¬ k.Slotted) : Calm t u := by
  cases change with
  | intern text =>
    exact consistent.calm_of_sameShape (.of_eq rfl rfl) rfl (fun _ => rfl) fun _ _ => rfl
  | requestType r =>
    exact consistent.calm_of_sameShape (.of_eq rfl rfl) rfl (fun _ => rfl) fun _ _ => rfl
  | numberType type index =>
    exact consistent.calm_of_sameShape (.of_eq rfl rfl) rfl (fun _ => rfl) fun _ _ => rfl
  | declare declared => exact consistent.calm_declare declared
  | openScope _ => exact consistent.calm_openScope _
  | nest _ _ _ =>
    exact consistent.calm_of_sameShape (sameShape_nest t _ _) rfl (fun _ => rfl) fun _ _ => rfl
  | setType type _ =>
    refine consistent.calm_of_sameShape (sameShape_setType t _ type) rfl ?_ (nextAt_eq ?_)
    · exact fun _ => slotAt_modifySymbol fun b => slot?_withDeclaredType b.form type
    · exact fun _ => layoutAt_modifySymbol fun b => layout?_withDeclaredType b.form type
  | setDefSite x site =>
    refine consistent.calm_of_sameShape (sameShape_setDefSite t x site) rfl ?_ (nextAt_eq ?_)
    · exact fun _ => slotAt_modifySymbol fun _ => rfl
    · exact fun _ => layoutAt_modifySymbol fun _ => rfl
  | define defined allowed =>
    exact consistent.calm_define defined (.inl fun a read => plain _ (allowed a read))

theorem Consistent.calm_changes (consistent : t.Consistent) (changes : Changes kinds t u)
    (plain : ∀ k, kinds k → ¬ k.Slotted) : Calm t u := by
  have both : u.Consistent ∧ Calm t u :=
    changes.keeps_of_consistent consistent (.refl t) fun _ _ consistent calm change =>
      calm.trans (consistent.calm_change change plain)
  exact both.2

/-- A definition is calm, unless a field or method is defined in a struct or class. -/
theorem Consistent.calm_or_member (consistent : t.Consistent) (given : t.HasScope s)
    (defined : t.define s x = .ok (.ok u)) : Calm t u ∨ ∃ D k kind, k.Slotted ∧
      t.scopeOwner? s = .ok (some D) ∧ t.kind D = .ok kind ∧ kind.isAggregate = true ∧
      t.kind x = .ok k := by
  obtain ⟨a, _, admits, _⟩ := define_eq_ok defined
  have symbol := admits.symbol
  by_cases slotted : a.kind.Slotted
  · obtain ⟨c, scope⟩ := hasScope_iff.mp given
    have owner : t.scopeOwner? s = .ok c.owner? := by
      rw [scopeOwner?, scope]
      rfl
    by_cases inside : ∃ D, c.owner? = some D ∧ t.IsAggregate D
    · obtain ⟨D, owned, b, read, aggregate⟩ := inside
      rw [owned] at owner
      exact .inr ⟨D, a.kind, b.kind, slotted, owner, kind_of_symbol read, aggregate,
        kind_of_symbol symbol⟩
    · refine .inl (consistent.calm_define defined (.inr ?_))
      intro c' D scope' owned aggregate
      cases Except.ok.inj (scope.symm.trans scope')
      exact inside ⟨D, owned, aggregate⟩
  · refine .inl (consistent.calm_define defined (.inl ?_))
    intro b read
    cases Except.ok.inj (symbol.symm.trans read)
    exact slotted

end Table

end Scoping
