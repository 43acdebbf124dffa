import Scoping.Proofs.Membership
import Scoping.Proofs.View
import Scoping.Table.Nesting

/-!
# The forest of scopes

Every way outwards ends at the predefined scope or at the body of a symbol that is not
defined yet. Seen from the other side, a scope lists the scopes directly inside it: the
bodies of its members, and its blocks.
-/

namespace Scoping

namespace Scope

variable {c : Scope} {q b : ScopeId}

@[simp]
theorem owner?_nest : (c.nest b).owner? = c.owner? := by
  unfold nest
  split <;> rfl

@[simp]
theorem enclosing_nest : (c.nest b).enclosing = c.enclosing := by
  unfold nest
  split <;> rfl

theorem mem_blocks_nest : q ∈ (c.nest b).blocks ↔ q ∈ c.blocks ∨ q = b := by
  unfold nest
  split
  · rename_i listed
    constructor
    · exact Or.inl
    · rintro (member | rfl)
      · exact member
      · exact listed
  · exact Array.mem_push

theorem nest_of_mem (listed : b ∈ c.blocks) : c.nest b = c := by
  rw [nest, if_pos listed]

theorem nodup_blocks_nest (distinct : c.blocks.toList.Nodup) : (c.nest b).blocks.toList.Nodup := by
  unfold nest
  split
  · exact distinct
  · rename_i new
    rw [Array.toList_push]
    refine List.nodup_append.mpr ⟨distinct, by simp, ?_⟩
    rintro q member _ last rfl
    rw [List.mem_singleton.mp last, Array.mem_toList_iff] at member
    exact new member

end Scope

namespace Table

variable {t u : Table} {r s q parent block : ScopeId} {x y : SymbolId} {a : Symbol}
  {c d : Scope} {kinds : Kind → Prop}

/-- The predefined scope is enclosed by none, and of the others only bodies are; the blocks
of a scope are enclosed by it and are listed once. -/
structure Forest (t : Table) : Prop where
  root : ∃ c, t.scope .predefined = .ok c ∧ c.owner? = none ∧ c.enclosing = none
  owned : ∀ {s c}, t.scope s = .ok c → c.enclosing = none →
    s = .predefined ∨ ∃ x, c.owner? = some x
  block : ∀ {s c q}, t.scope s = .ok c → q ∈ c.blocks →
    ∃ d, t.scope q = .ok d ∧ d.owner? = none ∧ d.enclosing = some s
  once : ∀ {s c}, t.scope s = .ok c → c.blocks.toList.Nodup

/-- A block inside a scope that the scope does not list. -/
def Waits (t : Table) (s q : ScopeId) : Prop :=
  (∃ d, t.scope q = .ok d ∧ d.owner? = none ∧ d.enclosing = some s) ∧
    ∀ c, t.scope s = .ok c → q ∉ c.blocks

theorem scope_congr (scopes : u.scopes = t.scopes) : u.scope = t.scope := by
  funext s
  rw [scope, scope, scopes]

theorem forest_new (config : Config) : (Table.new config).Forest where
  root := ⟨_, rfl, rfl, rfl⟩
  owned := by
    intro s c read outer
    rcases scope_new read with ⟨rfl, _⟩ | ⟨_, rfl⟩
    · exact .inl rfl
    · cases outer
  block := by
    intro s c q read member
    rcases scope_new read with ⟨rfl, rfl⟩ | ⟨_, rfl⟩
    · rw [List.mem_singleton.mp (Array.mem_toList_iff.mpr member)]
      exact ⟨_, rfl, rfl, rfl⟩
    · simp at member
  once := by
    intro s c read
    rcases scope_new read with ⟨_, rfl⟩ | ⟨_, rfl⟩
    · exact List.nodup_singleton _
    · exact List.nodup_nil

namespace Forest

theorem of_scopes (forest : t.Forest) (scopes : u.scopes = t.scopes) : u.Forest := by
  have same := scope_congr scopes
  exact ⟨same ▸ forest.root, same ▸ forest.owned, same ▸ forest.block, same ▸ forest.once⟩

/-- A scope may be added that is a body or inside another. -/
theorem push (forest : t.Forest) (pushed : u.scopes = t.scopes.push d)
    (placed : d.enclosing = none → ∃ x, d.owner? = some x) (empty : d.blocks = #[]) :
    u.Forest := by
  constructor
  case root =>
    obtain ⟨c, read, free⟩ := forest.root
    exact ⟨c, (scope_push_iff pushed).mpr (.inl read), free⟩
  case owned =>
    intro s c read outer
    rcases (scope_push_iff pushed).mp read with old | ⟨_, rfl⟩
    · exact forest.owned old outer
    · exact .inr (placed outer)
  case block =>
    intro s c q read member
    rcases (scope_push_iff pushed).mp read with old | ⟨_, rfl⟩
    · obtain ⟨e, there, inside⟩ := forest.block old member
      exact ⟨e, (scope_push_iff pushed).mpr (.inl there), inside⟩
    · simp [empty] at member
  case once =>
    intro s c read
    rcases (scope_push_iff pushed).mp read with old | ⟨_, rfl⟩
    · exact forest.once old
    · rw [empty]
      exact List.nodup_nil

theorem declare {text : String} {spec : Spec} (forest : t.Forest)
    (declared : t.declare text spec = .ok (x, u)) : u.Forest := by
  obtain ⟨_, _, name, form, _, fresh⟩ := declare_eq_ok declared
  rcases fresh.body with ⟨_, same⟩ | ⟨_, pushed⟩
  · exact forest.of_scopes same
  · exact forest.push pushed (fun _ => ⟨_, rfl⟩) rfl

theorem openScope (forest : t.Forest) (s : ScopeId) : (t.openScope s).2.Forest :=
  forest.push rfl (fun outer => by cases outer) rfl

end Forest

/-- A definition puts a body inside a scope, and no other scope. -/
theorem Consistent.enclosing_of_free (consistent : t.Consistent) (admits : Admits t s x a c)
    (read : t.scope r = .ok d) (free : d.owner? = none) :
    (placedScope s x a r d).enclosing = d.enclosing := by
  rw [enclosing_placedScope, if_neg]
  intro body
  obtain ⟨d', read', owner, _⟩ := consistent.body admits.symbol body
  cases Except.ok.inj (read.symm.trans read')
  cases free.symm.trans owner

/-- A scope after a block was listed in `parent`. -/
theorem scope_nest_iff : (t.modifyScope parent (·.nest block)).scope r = .ok d ↔
    ∃ d₀, t.scope r = .ok d₀ ∧ d = if parent = r then d₀.nest block else d₀ := by
  rw [scope_modifyScope]
  by_cases here : parent = r
  · rw [if_pos here]
    cases read : t.scope r with
    | error e => simp [Except.map]
    | ok d₀ => simp [Except.map, here, eq_comm]
  · simp [here]

namespace Forest

theorem nest (forest : t.Forest) (read : t.scope block = .ok c) (free : c.owner? = none)
    (inside : c.enclosing = some parent) : (t.modifyScope parent (·.nest block)).Forest := by
  -- owners and ways outwards stay
  have kept : ∀ {r d}, t.scope r = .ok d → ∃ e,
      (t.modifyScope parent (·.nest block)).scope r = .ok e ∧ e.owner? = d.owner? ∧
        e.enclosing = d.enclosing := by
    intro r d known
    refine ⟨_, scope_nest_iff.mpr ⟨d, known, rfl⟩, ?_, ?_⟩ <;> split <;> simp
  constructor
  case root =>
    obtain ⟨d, known, owner, outer⟩ := forest.root
    obtain ⟨e, known', owner', outer'⟩ := kept known
    exact ⟨e, known', owner'.trans owner, outer'.trans outer⟩
  case owned =>
    intro s e known outer
    obtain ⟨d, known₀, rfl⟩ := scope_nest_iff.mp known
    obtain ⟨e, known', owner', outer'⟩ := kept known₀
    cases Except.ok.inj (known.symm.trans known')
    rw [owner']
    exact forest.owned known₀ (outer'.symm.trans outer)
  case block =>
    intro s e q known member
    obtain ⟨d, known₀, rfl⟩ := scope_nest_iff.mp known
    have listed : q ∈ d.blocks ∨ parent = s ∧ q = block := by
      split at member
      · rename_i here
        exact (Scope.mem_blocks_nest.mp member).imp id fun same => ⟨here, same⟩
      · exact .inl member
    have before : ∃ e, t.scope q = .ok e ∧ e.owner? = none ∧ e.enclosing = some s := by
      rcases listed with old | ⟨rfl, rfl⟩
      · exact forest.block known₀ old
      · exact ⟨c, read, free, inside⟩
    obtain ⟨e, there, owner, outer⟩ := before
    obtain ⟨e', there', owner', outer'⟩ := kept there
    exact ⟨e', there', owner'.trans owner, outer'.trans outer⟩
  case once =>
    intro s e known
    obtain ⟨d, known₀, rfl⟩ := scope_nest_iff.mp known
    split
    · exact Scope.nodup_blocks_nest (forest.once known₀)
    · exact forest.once known₀

theorem placed (forest : t.Forest) (consistent : t.Consistent) (admits : Admits t s x a c) :
    (t.placed s x a c).Forest := by
  have apart : ∀ {r d}, t.scope r = .ok d → d.owner? = none →
      (placedScope s x a r d).enclosing = d.enclosing := consistent.enclosing_of_free admits
  constructor
  case root =>
    obtain ⟨d, read, free, outer⟩ := forest.root
    exact ⟨_, scope_placed read, owner?_placedScope.trans free, (apart read free).trans outer⟩
  case owned =>
    intro r e read outer
    obtain ⟨d, read₀, rfl⟩ := of_scope_placed read
    rw [owner?_placedScope]
    cases owner : d.owner? with
    | some y => exact .inr ⟨y, rfl⟩
    | none =>
      rw [apart read₀ owner] at outer
      rw [← owner]
      exact forest.owned read₀ outer
  case block =>
    intro r e q read member
    obtain ⟨d, read₀, rfl⟩ := of_scope_placed read
    rw [blocks_placedScope] at member
    obtain ⟨e, there, free, inside⟩ := forest.block read₀ member
    exact ⟨_, scope_placed there, owner?_placedScope.trans free, (apart there free).trans inside⟩
  case once =>
    intro r e read
    obtain ⟨d, read₀, rfl⟩ := of_scope_placed read
    rw [blocks_placedScope]
    exact forest.once read₀

theorem change (forest : t.Forest) (consistent : t.Consistent) (change : Change kinds t u) :
    u.Forest := by
  cases change with
  | intern text => exact forest.of_scopes rfl
  | requestType r => exact forest.of_scopes rfl
  | numberType type index => exact forest.of_scopes rfl
  | declare declared => exact forest.declare declared
  | openScope _ => exact forest.openScope _
  | nest read free inside => exact forest.nest read free inside
  | setType type _ => exact forest.of_scopes rfl
  | setDefSite x site => exact forest.of_scopes rfl
  | define defined _ =>
    obtain ⟨a, c, admits, assigned⟩ := define_eq_ok defined
    obtain ⟨symbols, rfl, _⟩ := assignSlotIn_unnumbered assigned
    exact (forest.placed consistent admits).of_scopes rfl

end Forest

theorem Changes.forest (changes : Changes kinds t u) (before : t.Consistent ∧ t.Forest) :
    u.Consistent ∧ u.Forest :=
  changes.keeps_of_consistent before.1 before.2 fun _ _ consistent forest change =>
    forest.change consistent change

theorem Reachable.forest (reachable : t.Reachable) : t.Forest := by
  obtain ⟨config, steps⟩ := reachable
  exact ((changes_of_steps steps).forest ⟨consistent_new config, forest_new config⟩).2

/-! ### What a scope contains -/

theorem outermostWithin_of_walk {steps : Nat} {path : List ScopeId}
    (walk : Walk t.enclosing? s path) (enough : path.length ≤ steps)
    (last : path.getLast? = some r) : t.outermostWithin steps s = .ok r := by
  induction walk generalizing steps with
  | stop ends =>
    obtain ⟨steps, rfl⟩ : ∃ k, steps = k + 1 := ⟨steps - 1, by simp at enough; omega⟩
    cases last
    rw [outermostWithin, ends]
    rfl
  | @step s o path goes further ih =>
    rw [List.length_cons] at enough
    obtain ⟨steps, rfl⟩ : ∃ k, steps = k + 1 := ⟨steps - 1, by omega⟩
    obtain ⟨rest, rfl⟩ := further.eq_cons
    rw [outermostWithin, goes]
    exact ih (Nat.le_of_succ_le_succ enough) (by simpa using last)

theorem outermost_of_walk {path : List ScopeId} (walk : Walk t.enclosing? s path)
    (last : path.getLast? = some r) : t.outermost s = .ok r :=
  outermostWithin_of_walk walk (length_walk_le_outwardSteps walk) last

/-- The scopes without a scope around them are the predefined one and the bodies of symbols
that are not defined. -/
theorem Forest.enclosing?_eq_none_iff (forest : t.Forest) (consistent : t.Consistent)
    (given : t.HasScope s) : t.enclosing? s = .ok none ↔
      s = .predefined ∨ ∃ x, t.body? x = .ok (some s) ∧ t.owningScope? x = .ok none := by
  obtain ⟨c, read⟩ := hasScope_iff.mp given
  constructor
  · intro outer
    rw [enclosing?_of_scope read, Except.ok.injEq] at outer
    refine (forest.owned read outer).imp id ?_
    rintro ⟨x, owner⟩
    obtain ⟨a, symbol, body⟩ := consistent.owner read owner
    obtain ⟨c', read', _, home⟩ := consistent.body symbol body
    cases Except.ok.inj (read.symm.trans read')
    rw [outer] at home
    exact ⟨x, body?_eq_ok_iff.mpr ⟨a, symbol, body⟩,
      owningScope?_eq_ok_iff.mpr ⟨a, symbol, home.symm⟩⟩
  · rintro (rfl | ⟨x, known, undefined⟩)
    · obtain ⟨c, root, _, outer⟩ := forest.root
      rw [enclosing?_of_scope root, outer]
    · obtain ⟨a, symbol, body⟩ := body?_eq_ok_iff.mp known
      obtain ⟨a', symbol', home⟩ := owningScope?_eq_ok_iff.mp undefined
      cases Except.ok.inj (symbol.symm.trans symbol')
      obtain ⟨c', read', _, inside⟩ := consistent.body symbol body
      rw [enclosing?_of_scope read', inside, home]

namespace Consistent

/-- A body and its owner tell each other, and that the one is where the other is defined. -/
theorem body_links (consistent : t.Consistent) (has : t.body? x = .ok (some s)) :
    t.scopeOwner? s = .ok (some x) ∧
      ∃ home, t.owningScope? x = .ok home ∧ t.enclosing? s = .ok home := by
  obtain ⟨a, symbol, body⟩ := body?_eq_ok_iff.mp has
  obtain ⟨c, read, owner, inside⟩ := consistent.body symbol body
  refine ⟨?_, a.owningScope?, owningScope?_eq_ok_iff.mpr ⟨a, symbol, rfl⟩, ?_⟩
  · rw [scopeOwner?_of_scope read, owner]
  · rw [enclosing?_of_scope read, inside]

theorem bodiesOf_eq (consistent : t.Consistent) (read : t.scope s = .ok c) :
    t.bodiesOf s = .ok (c.members.toList.filterMap t.bodyAt) := by
  rw [bodiesOf, symbolsOf_eq_ok_iff.mpr ⟨c, read, rfl⟩, Answer.ok_bind]
  exact bodies_eq fun x listed =>
    consistent.hasSymbol_of_listed read (Array.mem_toList_iff.mp listed)

theorem bodiesOf_eq_ok_iff (consistent : t.Consistent) {l : List ScopeId} :
    t.bodiesOf s = .ok l ↔ ∃ c, t.scope s = .ok c ∧ c.members.toList.filterMap t.bodyAt = l := by
  constructor
  · intro listed
    obtain ⟨_, members, _⟩ := Answer.bind_eq_ok_iff.mp listed
    obtain ⟨c, read, _⟩ := symbolsOf_eq_ok_iff.mp members
    exact ⟨c, read, Except.ok.inj ((consistent.bodiesOf_eq read).symm.trans listed)⟩
  · rintro ⟨c, read, rfl⟩
    exact consistent.bodiesOf_eq read

theorem nestedScopes_eq (consistent : t.Consistent) (read : t.scope s = .ok c) :
    t.nestedScopes s = .ok (c.members.toList.filterMap t.bodyAt ++ c.blocks.toList) := by
  rw [nestedScopes, consistent.bodiesOf_eq read, Answer.ok_bind, read]
  rfl

theorem nestedScopes_eq_ok_iff (consistent : t.Consistent) {l : List ScopeId} :
    t.nestedScopes s = .ok l ↔ ∃ c, t.scope s = .ok c ∧
      c.members.toList.filterMap t.bodyAt ++ c.blocks.toList = l := by
  constructor
  · intro listed
    obtain ⟨_, bodies, _⟩ := Answer.bind_eq_ok_iff.mp listed
    obtain ⟨c, read, _⟩ := consistent.bodiesOf_eq_ok_iff.mp bodies
    exact ⟨c, read, Except.ok.inj ((consistent.nestedScopes_eq read).symm.trans listed)⟩
  · rintro ⟨c, read, rfl⟩
    exact consistent.nestedScopes_eq read

/-- The bodies of the members are the bodies that the scope encloses. -/
theorem mem_bodies_iff (consistent : t.Consistent) (read : t.scope s = .ok c) :
    q ∈ c.members.toList.filterMap t.bodyAt ↔
      ∃ d x, t.scope q = .ok d ∧ d.owner? = some x ∧ d.enclosing = some s := by
  rw [List.mem_filterMap]
  constructor
  · rintro ⟨x, listed, has⟩
    obtain ⟨a, symbol, body⟩ := body?_eq_ok_iff.mp (bodyAt_eq_some_iff.mp has)
    obtain ⟨a', symbol', home⟩ :=
      (consistent.mem_members_iff read).mp (Array.mem_toList_iff.mp listed)
    cases Except.ok.inj (symbol.symm.trans symbol')
    obtain ⟨d, there, owner, inside⟩ := consistent.body symbol body
    exact ⟨d, x, there, owner, inside.trans home⟩
  · rintro ⟨d, x, there, owner, inside⟩
    obtain ⟨a, symbol, body⟩ := consistent.owner there owner
    obtain ⟨d', there', _, home⟩ := consistent.body symbol body
    cases Except.ok.inj (there.symm.trans there')
    rw [inside] at home
    refine ⟨x, Array.mem_toList_iff.mpr ?_, (bodyAt_of_symbol symbol).trans body⟩
    exact (consistent.mem_members_iff read).mpr ⟨a, symbol, home.symm⟩

/-- A scope lists what it encloses, except for the blocks that wait. -/
theorem mem_nestedScopes_iff (consistent : t.Consistent) (forest : t.Forest)
    {l : List ScopeId} (listed : t.nestedScopes s = .ok l) :
    q ∈ l ↔ t.enclosing? q = .ok (some s) ∧ ¬ t.Waits s q := by
  obtain ⟨c, read, rfl⟩ := consistent.nestedScopes_eq_ok_iff.mp listed
  rw [List.mem_append, consistent.mem_bodies_iff read, Array.mem_toList_iff, enclosing?_eq_ok_iff]
  constructor
  · rintro (⟨d, x, there, owner, inside⟩ | member)
    · refine ⟨⟨d, there, inside⟩, ?_⟩
      rintro ⟨⟨d', there', free, _⟩, _⟩
      cases Except.ok.inj (there.symm.trans there')
      cases owner.symm.trans free
    · obtain ⟨d, there, _, inside⟩ := forest.block read member
      exact ⟨⟨d, there, inside⟩, fun waits => waits.2 c read member⟩
  · rintro ⟨⟨d, there, inside⟩, listed⟩
    cases owner : d.owner? with
    | some x => exact .inl ⟨d, x, there, owner, inside⟩
    | none =>
      refine .inr (Classical.byContradiction fun other => listed ⟨⟨d, there, owner, inside⟩, ?_⟩)
      intro c' read'
      cases Except.ok.inj (read.symm.trans read')
      exact other

theorem nodup_nestedScopes (consistent : t.Consistent) (forest : t.Forest)
    (read : t.scope s = .ok c) :
    (c.members.toList.filterMap t.bodyAt ++ c.blocks.toList).Nodup := by
  refine List.nodup_append.mpr ⟨?_, forest.once read, ?_⟩
  · refine (consistent.distinct read).filterMap fun x y q here there => ?_
    -- two members with one body are its one owner
    have owner := (consistent.body_links (bodyAt_eq_some_iff.mp here)).1
    rw [(consistent.body_links (bodyAt_eq_some_iff.mp there)).1] at owner
    exact (Option.some.inj (Except.ok.inj owner)).symm
  · rintro q body _ member rfl
    obtain ⟨d, x, there, owner, _⟩ := (consistent.mem_bodies_iff read).mp body
    obtain ⟨d', there', free, _⟩ := forest.block read (Array.mem_toList_iff.mp member)
    cases Except.ok.inj (there.symm.trans there')
    cases owner.symm.trans free

end Consistent

end Table

end Scoping
