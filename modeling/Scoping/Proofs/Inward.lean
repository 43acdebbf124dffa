import Scoping.Proofs.Forest
import Scoping.Table.Outline

/-!
# Everything inside a scope

A scope lists only scopes that it encloses, so every step inwards makes the way outwards one
longer. Ways outwards are no longer than there are scopes, and so a walk inwards comes to an
end. It meets scopes and symbols that were given out.
-/

namespace Scoping

namespace Table

variable {t : Table} {s : ScopeId}

/-- What can be shown of a scope from the scopes that it encloses, one level less deep, holds
at the depth that walks inwards start with. -/
theorem Consistent.inward {P : Nat → ScopeId → Prop} (consistent : t.Consistent)
    (step : ∀ depth s, t.HasScope s → (∀ q, t.enclosing? q = .ok (some s) → P depth q) →
      P (depth + 1) s) (given : t.HasScope s) : P t.inwardSteps s := by
  have deep : ∀ depth s path, Walk t.enclosing? s path →
      t.scopes.size < depth + path.length → P depth s := by
    intro depth
    induction depth with
    | zero =>
      intro s path walk enough
      have short := length_walk_le walk
      omega
    | succ depth ih =>
      intro s path walk enough
      refine step depth s (hasScope_of_mem_walk walk walk.mem_start) fun q inside => ?_
      refine ih q (q :: path) (.step inside walk) ?_
      rw [List.length_cons]
      omega
  obtain ⟨path, walk⟩ := consistent.rooted given
  refine deep t.inwardSteps s path walk ?_
  rw [inwardSteps]
  omega

theorem hasScope_of_enclosing? {o : Option ScopeId} (inside : t.enclosing? s = .ok o) :
    t.HasScope s := by
  obtain ⟨c, read, _⟩ := enclosing?_eq_ok_iff.mp inside
  exact hasScope_iff.mpr ⟨c, read⟩

namespace Consistent

theorem exists_symbolsOf (consistent : t.Consistent) (given : t.HasScope s) :
    ∃ l, t.symbolsOf s = .ok l ∧ ∀ x ∈ l, t.HasSymbol x := by
  obtain ⟨c, read⟩ := hasScope_iff.mp given
  exact ⟨_, symbolsOf_eq_ok_iff.mpr ⟨c, read, rfl⟩, fun x listed =>
    consistent.hasSymbol_of_listed read (Array.mem_toList_iff.mp listed)⟩

/-- The bodies of the members are enclosed by the scope. -/
theorem exists_bodiesOf (consistent : t.Consistent) (given : t.HasScope s) :
    ∃ l, t.bodiesOf s = .ok l ∧ ∀ q ∈ l, t.enclosing? q = .ok (some s) := by
  obtain ⟨c, read⟩ := hasScope_iff.mp given
  refine ⟨_, consistent.bodiesOf_eq read, fun q body => ?_⟩
  obtain ⟨d, x, there, _, inside⟩ := (consistent.mem_bodies_iff read).mp body
  rw [enclosing?_of_scope there, inside]

/-- What a scope contains is enclosed by it. -/
theorem exists_nestedScopes (consistent : t.Consistent) (forest : t.Forest)
    (given : t.HasScope s) :
    ∃ l, t.nestedScopes s = .ok l ∧ ∀ q ∈ l, t.enclosing? q = .ok (some s) := by
  obtain ⟨c, read⟩ := hasScope_iff.mp given
  have listed := consistent.nestedScopes_eq read
  exact ⟨_, listed, fun q member =>
    ((consistent.mem_nestedScopes_iff forest listed).mp member).1⟩

/-- The scopes below a scope are listed at any depth, if those directly inside are. -/
theorem exists_below {direct : ScopeId → Answer (List ScopeId)} (consistent : t.Consistent)
    (lists : ∀ s, t.HasScope s →
      ∃ l, direct s = .ok l ∧ ∀ q ∈ l, t.enclosing? q = .ok (some s))
    (given : t.HasScope s) :
    ∃ l, belowWithin direct t.inwardSteps s = .ok l ∧ ∀ q ∈ l, t.HasScope q := by
  refine consistent.inward (P := fun depth s =>
    ∃ l, belowWithin direct depth s = .ok l ∧ ∀ q ∈ l, t.HasScope q) ?_ given
  intro depth s given below
  obtain ⟨inside, listed, enclosed⟩ := lists s given
  obtain ⟨rest, deeper, known⟩ :=
    Answer.exists_mapM_of_forall fun q member => below q (enclosed q member)
  refine ⟨inside ++ rest.flatten, ?_, fun q member => ?_⟩
  · rw [belowWithin, listed, Answer.ok_bind, deeper]
    rfl
  · rcases List.mem_append.mp member with member | member
    · exact hasScope_of_enclosing? (enclosed q member)
    · obtain ⟨l, listed, member⟩ := List.mem_flatten.mp member
      exact known l listed q member

/-- The symbols of a scope and of the bodies inside it are listed. -/
theorem exists_allSymbols (consistent : t.Consistent) (given : t.HasScope s) :
    ∃ l, t.allSymbols s = .ok l ∧ ∀ x ∈ l, t.HasSymbol x := by
  refine consistent.inward (P := fun depth s =>
    ∃ l, t.allSymbolsWithin depth s = .ok l ∧ ∀ x ∈ l, t.HasSymbol x) ?_ given
  intro depth s given below
  obtain ⟨members, listed, known⟩ := consistent.exists_symbolsOf given
  obtain ⟨inside, bodies, enclosed⟩ := consistent.exists_bodiesOf given
  obtain ⟨rest, deeper, known'⟩ :=
    Answer.exists_mapM_of_forall fun q member => below q (enclosed q member)
  refine ⟨members ++ rest.flatten, ?_, fun x member => ?_⟩
  · rw [allSymbolsWithin, listed, Answer.ok_bind, bodies, Answer.ok_bind, deeper]
    rfl
  · rcases List.mem_append.mp member with member | member
    · exact known x member
    · obtain ⟨l, listed, member⟩ := List.mem_flatten.mp member
      exact known' l listed x member

end Consistent

/-! ### Outlines -/

end Table

/-- The deepest level whose indent a line needs. A header needs the one of the lines below it,
whether or not there are any. -/
def OutlineLine.reach (line : OutlineLine) : Nat :=
  match line.item with
  | .header _ => line.level + 1
  | .entry _ => line.level

namespace Table

variable {t : Table} {s : ScopeId}

/-- What a line of an outline stands for was given out. -/
def HasItem (t : Table) : OutlineItem → Prop
  | .header s => t.HasScope s
  | .entry x => t.HasSymbol x

theorem Consistent.exists_plainMembers (consistent : t.Consistent) (given : t.HasScope s) :
    ∃ l, t.plainMembers s = .ok l ∧ ∀ x ∈ l, t.HasSymbol x := by
  obtain ⟨members, listed, known⟩ := consistent.exists_symbolsOf given
  have told : ∀ x ∈ members, ∃ b, (return (← t.body? x).isNone : Answer Bool) = .ok b := by
    intro x member
    obtain ⟨a, symbol⟩ := hasSymbol_iff.mp (known x member)
    exact ⟨_, by rw [body?_of_symbol symbol]; rfl⟩
  obtain ⟨l, plain, within⟩ := Answer.exists_filterM told
  exact ⟨l, by rw [plainMembers, listed]; exact plain, fun x member => known x (within x member)⟩

/-- Every scope has an outline, of symbols and scopes that were given out, and no deeper than a
walk inwards can be. -/
theorem Consistent.exists_outline (consistent : t.Consistent) (forest : t.Forest)
    (given : t.HasScope s) : ∃ lines, t.outline s = .ok lines ∧
      ∀ line ∈ lines, t.HasItem line.item ∧ line.reach ≤ t.inwardSteps := by
  have outlined := consistent.inward (P := fun depth s => ∀ level, ∃ lines,
    t.outlineWithin depth level s = .ok lines ∧
      ∀ line ∈ lines, t.HasItem line.item ∧ line.reach ≤ level + depth) ?_ given 0
  · rwa [Nat.zero_add] at outlined
  intro depth s given below level
  obtain ⟨members, plain, known⟩ := consistent.exists_plainMembers given
  obtain ⟨inside, listed, enclosed⟩ := consistent.exists_nestedScopes forest given
  obtain ⟨rest, deeper, known'⟩ :=
    Answer.exists_mapM_of_forall fun q member => below q (enclosed q member) (level + 1)
  refine ⟨⟨level, .header s⟩ :: members.map (fun x => ⟨level + 1, .entry x⟩) ++ rest.flatten,
    ?_, fun line member => ?_⟩
  · rw [outlineWithin, plain, Answer.ok_bind, listed, Answer.ok_bind, deeper]
    rfl
  · have within : level + 1 ≤ level + (depth + 1) := by omega
    rcases List.mem_append.mp member with member | member
    · rcases List.mem_cons.mp member with rfl | member
      · exact ⟨given, within⟩
      · obtain ⟨x, plain, rfl⟩ := List.mem_map.mp member
        exact ⟨known x plain, within⟩
    · obtain ⟨lines, listed, member⟩ := List.mem_flatten.mp member
      obtain ⟨item, reach⟩ := known' lines listed line member
      exact ⟨item, by omega⟩

end Table

end Scoping
