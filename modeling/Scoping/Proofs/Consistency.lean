import Mathlib.Data.List.Perm.Subperm
import Scoping.Proofs.Change
import Scoping.Proofs.Walk

/-!
# Consistent tables

One fact is written down at several places: the scope that a symbol is defined in
lists it and finds it, a body and its owner name each other, and the body lies in
the scope that its owner is defined in. Besides, every way outwards ends. All
reachable tables are consistent in this sense.
-/

namespace Scoping

namespace Table

/-- The handles of a table agree with each other, and every scope has a way out. -/
structure Consistent (t : Table) : Prop where
  enclosing : ∀ {s c o}, t.scope s = .ok c → c.enclosing = some o → t.HasScope o
  rooted : ∀ {s}, t.HasScope s → ∃ path, Walk t.enclosing? s path
  owner : ∀ {s c x}, t.scope s = .ok c → c.owner? = some x →
    ∃ a, t.symbol x = .ok a ∧ a.form.body? = some s
  body : ∀ {x a s}, t.symbol x = .ok a → a.form.body? = some s →
    ∃ c, t.scope s = .ok c ∧ c.owner? = some x ∧ c.enclosing = a.owningScope?
  home : ∀ {x a s}, t.symbol x = .ok a → a.owningScope? = some s →
    ∃ c, t.scope s = .ok c ∧ x ∈ c.members
  member : ∀ {s c x}, t.scope s = .ok c → x ∈ c.members →
    ∃ a, t.symbol x = .ok a ∧ a.owningScope? = some s ∧ c.find? a.name = some x
  found : ∀ {s c n x}, t.scope s = .ok c → c.find? n = some x →
    x ∈ c.members ∧ ∃ a, t.symbol x = .ok a ∧ a.name = n
  distinct : ∀ {s c}, t.scope s = .ok c → c.members.toList.Nodup

variable {t u : Table} {s : ScopeId} {x : SymbolId} {a : Symbol} {c : Scope}

theorem enclosing?_of_scope (read : t.scope s = .ok c) : t.enclosing? s = .ok c.enclosing := by
  rw [enclosing?, read]
  rfl

theorem scopeOwner?_of_scope (read : t.scope s = .ok c) : t.scopeOwner? s = .ok c.owner? := by
  rw [scopeOwner?, read]
  rfl

theorem enclosing?_eq_ok_iff {o : Option ScopeId} :
    t.enclosing? s = .ok o ↔ ∃ c, t.scope s = .ok c ∧ c.enclosing = o := by
  rw [enclosing?, Answer.bind_eq_ok_iff]
  simp

/-! ### Handles that entries hold -/

namespace Consistent

theorem hasSymbol_of_listed (consistent : t.Consistent) (read : t.scope s = .ok c)
    (listed : x ∈ c.members) : t.HasSymbol x := by
  obtain ⟨a, symbol, _⟩ := consistent.member read listed
  exact hasSymbol_iff.mpr ⟨a, symbol⟩

theorem hasSymbol_of_found {n : Name} (consistent : t.Consistent) (read : t.scope s = .ok c)
    (found : c.find? n = some x) : t.HasSymbol x :=
  consistent.hasSymbol_of_listed read (consistent.found read found).1

theorem hasSymbol_of_owned (consistent : t.Consistent) (read : t.scope s = .ok c)
    (owned : c.owner? = some x) : t.HasSymbol x := by
  obtain ⟨a, symbol, _⟩ := consistent.owner read owned
  exact hasSymbol_iff.mpr ⟨a, symbol⟩

theorem hasScope_of_body (consistent : t.Consistent) (symbol : t.symbol x = .ok a)
    (body : a.form.body? = some s) : t.HasScope s := by
  obtain ⟨c, read, _⟩ := consistent.body symbol body
  exact hasScope_iff.mpr ⟨c, read⟩

theorem hasScope_of_home (consistent : t.Consistent) (symbol : t.symbol x = .ok a)
    (home : a.owningScope? = some s) : t.HasScope s := by
  obtain ⟨c, read, _⟩ := consistent.home symbol home
  exact hasScope_iff.mpr ⟨c, read⟩

end Consistent

/-- The scope of a new table is the predefined one or the global one. -/
theorem scope_new {config : Config} (read : (Table.new config).scope s = .ok c) :
    s = .predefined ∧ c = { kind := .predefined, enclosing := none, blocks := #[.global] } ∨
    s = .global ∧ c = { kind := .global, enclosing := some .predefined } := by
  rw [scope_eq_ok_iff] at read
  obtain ⟨index⟩ := s
  match index with
  | 0 => exact .inl ⟨rfl, (Option.some.inj read).symm⟩
  | 1 => exact .inr ⟨rfl, (Option.some.inj read).symm⟩
  | n + 2 => simp [Table.new] at read

theorem symbol_new {config : Config} : (Table.new config).symbol x ≠ .ok a := by
  rw [Ne, symbol_eq_ok_iff]
  simp [Table.new]

theorem consistent_new (config : Config) : (Table.new config).Consistent where
  enclosing := by
    intro s c o read inside
    rcases scope_new read with ⟨_, rfl⟩ | ⟨_, rfl⟩
    · cases inside
    · cases inside
      exact (by decide : 0 < 2)
  rooted := by
    intro s given
    obtain ⟨c, read⟩ := hasScope_iff.mp given
    have root : (Table.new config).enclosing? .predefined = .ok none := rfl
    have below : (Table.new config).enclosing? .global = .ok (some .predefined) := rfl
    rcases scope_new read with ⟨rfl, _⟩ | ⟨rfl, _⟩
    · exact ⟨_, .stop root⟩
    · exact ⟨_, .step below (.stop root)⟩
  owner := by
    intro s c x read owned
    rcases scope_new read with ⟨_, rfl⟩ | ⟨_, rfl⟩ <;> cases owned
  body := fun read _ => absurd read symbol_new
  home := fun read _ => absurd read symbol_new
  member := by
    intro s c x read listed
    rcases scope_new read with ⟨_, rfl⟩ | ⟨_, rfl⟩ <;> simp at listed
  found := by
    intro s c n x read found
    rcases scope_new read with ⟨_, rfl⟩ | ⟨_, rfl⟩ <;> simp [Scope.find?] at found
  distinct := by
    intro s c read
    rcases scope_new read with ⟨_, rfl⟩ | ⟨_, rfl⟩ <;> exact List.nodup_nil

theorem Consistent.sameShape (consistent : t.Consistent) (same : SameShape t u) :
    u.Consistent where
  enclosing := by
    intro s c o read inside
    obtain ⟨d, read', shape⟩ := same.symm.scope read
    rw [Scope.shape_eq_iff] at shape
    exact same.alike.hasScope_iff.mp (consistent.enclosing read' (shape.2.1.trans inside))
  rooted := by
    intro s given
    rw [← same.aspect.enclosing?_eq]
    exact consistent.rooted (same.alike.hasScope_iff.mpr given)
  owner := by
    intro s c x read owned
    obtain ⟨d, read', shape⟩ := same.symm.scope read
    rw [Scope.shape_eq_iff] at shape
    obtain ⟨a, symbol, body⟩ := consistent.owner read' ((Scope.owner?_eq shape.1).trans owned)
    obtain ⟨b, symbol', shape'⟩ := same.symbol symbol
    rw [Symbol.shape_eq_iff] at shape'
    exact ⟨b, symbol', shape'.2.2.1.trans body⟩
  body := by
    intro x b s symbol body
    obtain ⟨a, symbol', shape⟩ := same.symm.symbol symbol
    rw [Symbol.shape_eq_iff] at shape
    obtain ⟨c, read, owned, inside⟩ := consistent.body symbol' (shape.2.2.1.trans body)
    obtain ⟨d, read', shape'⟩ := same.scope read
    rw [Scope.shape_eq_iff] at shape'
    refine ⟨d, read', (Scope.owner?_eq shape'.1).trans owned, ?_⟩
    rw [shape'.2.1, inside, Symbol.owningScope?_eq shape.2.2.2.2]
  home := by
    intro x b s symbol placed
    obtain ⟨a, symbol', shape⟩ := same.symm.symbol symbol
    rw [Symbol.shape_eq_iff] at shape
    have placed' := (Symbol.owningScope?_eq shape.2.2.2.2).trans placed
    obtain ⟨c, read, listed⟩ := consistent.home symbol' placed'
    obtain ⟨d, read', shape'⟩ := same.scope read
    rw [Scope.shape_eq_iff] at shape'
    exact ⟨d, read', shape'.2.2.1 ▸ listed⟩
  member := by
    intro s d x read listed
    obtain ⟨c, read', shape⟩ := same.symm.scope read
    rw [Scope.shape_eq_iff] at shape
    obtain ⟨a, symbol, placed, found⟩ := consistent.member read' (shape.2.2.1 ▸ listed)
    obtain ⟨b, symbol', shape'⟩ := same.symbol symbol
    rw [Symbol.shape_eq_iff] at shape'
    refine ⟨b, symbol', (Symbol.owningScope?_eq shape'.2.2.2.2).trans placed, ?_⟩
    rw [← Scope.find?_eq shape.2.2.2, shape'.1, found]
  found := by
    intro s d n x read found
    obtain ⟨c, read', shape⟩ := same.symm.scope read
    rw [Scope.shape_eq_iff] at shape
    rw [← Scope.find?_eq shape.2.2.2] at found
    obtain ⟨listed, a, symbol, name⟩ := consistent.found read' found
    obtain ⟨b, symbol', shape'⟩ := same.symbol symbol
    rw [Symbol.shape_eq_iff] at shape'
    exact ⟨shape.2.2.1 ▸ listed, b, symbol', shape'.1.trans name⟩
  distinct := by
    intro s d read
    obtain ⟨c, read', shape⟩ := same.symm.scope read
    rw [Scope.shape_eq_iff] at shape
    exact shape.2.2.1 ▸ consistent.distinct read'

theorem Consistent.openScope (consistent : t.Consistent) (given : t.HasScope s) :
    (t.openScope s).2.Consistent := by
  have pushed : (t.openScope s).2.scopes =
      t.scopes.push { kind := .block, enclosing := some s } := rfl
  have grown : ∀ {r}, t.HasScope r → (t.openScope s).2.HasScope r := by
    intro r old
    have small : r.index < t.scopes.size := old
    rw [HasScope, pushed, Array.size_push]
    omega
  have walks : ∀ {r path}, Walk t.enclosing? r path → Walk (t.openScope s).2.enclosing? r path := by
    intro r path walk
    refine walk.mono fun q o goes => ?_
    obtain ⟨c, read, inside⟩ := enclosing?_eq_ok_iff.mp goes
    exact enclosing?_eq_ok_iff.mpr ⟨c, (scope_push_iff pushed).mpr (.inl read), inside⟩
  constructor
  case enclosing =>
    intro r c o read inside
    rcases (scope_push_iff pushed).mp read with read | ⟨_, rfl⟩
    · exact grown (consistent.enclosing read inside)
    · cases inside
      exact grown given
  case rooted =>
    intro r known
    obtain ⟨c, read⟩ := hasScope_iff.mp known
    rcases (scope_push_iff pushed).mp read with old | ⟨rfl, rfl⟩
    · obtain ⟨path, walk⟩ := consistent.rooted (hasScope_iff.mpr ⟨c, old⟩)
      exact ⟨path, walks walk⟩
    · obtain ⟨path, walk⟩ := consistent.rooted given
      exact ⟨_, .step (enclosing?_of_scope read) (walks walk)⟩
  case owner =>
    intro r c x read owned
    rcases (scope_push_iff pushed).mp read with read | ⟨_, rfl⟩
    · exact consistent.owner read owned
    · cases owned
  case body =>
    intro x a r symbol body
    obtain ⟨c, read, owned⟩ := consistent.body symbol body
    exact ⟨c, (scope_push_iff pushed).mpr (.inl read), owned⟩
  case home =>
    intro x a r symbol placed
    obtain ⟨c, read, listed⟩ := consistent.home symbol placed
    exact ⟨c, (scope_push_iff pushed).mpr (.inl read), listed⟩
  case member =>
    intro r c x read listed
    rcases (scope_push_iff pushed).mp read with read | ⟨_, rfl⟩
    · exact consistent.member read listed
    · simp at listed
  case found =>
    intro r c n x read found
    rcases (scope_push_iff pushed).mp read with read | ⟨_, rfl⟩
    · exact consistent.found read found
    · simp [Scope.find?] at found
  case distinct =>
    intro r c read
    rcases (scope_push_iff pushed).mp read with read | ⟨_, rfl⟩
    · exact consistent.distinct read
    · exact List.nodup_nil

theorem Consistent.declare (consistent : t.Consistent) {text : String} {spec : Spec}
    (declared : t.declare text spec = .ok (x, u)) : u.Consistent := by
  obtain ⟨_, _, name, form, pushed, fresh⟩ := declare_eq_ok declared
  have walks : ∀ {r path}, Walk t.enclosing? r path → Walk u.enclosing? r path := by
    intro r path walk
    refine walk.mono fun q o goes => ?_
    obtain ⟨c, read, inside⟩ := enclosing?_eq_ok_iff.mp goes
    exact enclosing?_eq_ok_iff.mpr ⟨c, fresh.scope_iff.mpr (.inl read), inside⟩
  have known : ∀ {r}, t.HasScope r → u.HasScope r := by
    intro r given
    obtain ⟨c, read⟩ := hasScope_iff.mp given
    exact hasScope_iff.mpr ⟨c, fresh.scope_iff.mpr (.inl read)⟩
  constructor
  case enclosing =>
    intro r c o read inside
    rcases fresh.scope_iff.mp read with read | ⟨_, rfl⟩
    · exact known (consistent.enclosing read inside)
    · cases inside
  case rooted =>
    intro r given
    obtain ⟨c, read⟩ := hasScope_iff.mp given
    rcases fresh.scope_iff.mp read with old | ⟨_, rfl⟩
    · obtain ⟨path, walk⟩ := consistent.rooted (hasScope_iff.mpr ⟨c, old⟩)
      exact ⟨path, walks walk⟩
    · exact ⟨[r], .stop (enclosing?_of_scope read)⟩
  case owner =>
    intro r c x read owned
    rcases fresh.scope_iff.mp read with read | ⟨body, rfl⟩
    · obtain ⟨a, symbol, body⟩ := consistent.owner read owned
      exact ⟨a, (symbol_push_iff pushed).mpr (.inl symbol), body⟩
    · cases owned
      exact ⟨_, (symbol_push_iff pushed).mpr (.inr ⟨rfl, rfl⟩), body⟩
  case body =>
    intro x a r symbol body
    rcases (symbol_push_iff pushed).mp symbol with symbol | ⟨rfl, rfl⟩
    · obtain ⟨c, read, owned⟩ := consistent.body symbol body
      exact ⟨c, fresh.scope_iff.mpr (.inl read), owned⟩
    · exact ⟨t.nextBody, fresh.scope_iff.mpr (.inr ⟨body, rfl⟩), rfl, rfl⟩
  case home =>
    intro x a r symbol placed
    rcases (symbol_push_iff pushed).mp symbol with symbol | ⟨_, rfl⟩
    · obtain ⟨c, read, listed⟩ := consistent.home symbol placed
      exact ⟨c, fresh.scope_iff.mpr (.inl read), listed⟩
    · cases placed
  case member =>
    intro r c x read listed
    rcases fresh.scope_iff.mp read with read | ⟨_, rfl⟩
    · obtain ⟨a, symbol, placed⟩ := consistent.member read listed
      exact ⟨a, (symbol_push_iff pushed).mpr (.inl symbol), placed⟩
    · simp [nextBody] at listed
  case found =>
    intro r c n x read found
    rcases fresh.scope_iff.mp read with read | ⟨_, rfl⟩
    · obtain ⟨listed, a, symbol, name⟩ := consistent.found read found
      exact ⟨listed, a, (symbol_push_iff pushed).mpr (.inl symbol), name⟩
    · simp [Scope.find?, nextBody] at found
  case distinct =>
    intro r c read
    rcases fresh.scope_iff.mp read with read | ⟨_, rfl⟩
    · exact consistent.distinct read
    · exact List.nodup_nil

/-! ### Ways outwards -/

theorem walk_of_pathWithin {steps : Nat} {path : List ScopeId}
    (found : t.pathWithin steps s = .ok path) : Walk t.enclosing? s path := by
  induction steps generalizing s path with
  | zero => cases found
  | succ steps ih =>
    obtain ⟨outer, read, found⟩ := Answer.bind_eq_ok_iff.mp found
    cases outer with
    | none => cases found; exact .stop read
    | some o =>
      obtain ⟨rest, further, found⟩ := Answer.bind_eq_ok_iff.mp found
      cases found
      exact .step read (ih further)

theorem pathWithin_of_walk {steps : Nat} {path : List ScopeId} (walk : Walk t.enclosing? s path)
    (enough : path.length ≤ steps) : t.pathWithin steps s = .ok path := by
  induction walk generalizing steps with
  | stop ends =>
    cases steps with
    | zero => simp at enough
    | succ steps => rw [pathWithin, ends]; rfl
  | step goes _ ih =>
    cases steps with
    | zero => simp at enough
    | succ steps =>
      have rest := ih (Nat.le_of_succ_le_succ enough)
      rw [pathWithin, goes]
      simp only [Answer.ok_bind, rest]
      rfl

theorem hasScope_of_mem_walk {path : List ScopeId} (walk : Walk t.enclosing? s path)
    {r : ScopeId} (member : r ∈ path) : t.HasScope r := by
  obtain ⟨_, after, _, walk'⟩ := walk.from_mem member
  cases walk' with
  | stop ends =>
    obtain ⟨c, read, _⟩ := enclosing?_eq_ok_iff.mp ends
    exact hasScope_iff.mpr ⟨c, read⟩
  | step goes _ =>
    obtain ⟨c, read, _⟩ := enclosing?_eq_ok_iff.mp goes
    exact hasScope_iff.mpr ⟨c, read⟩

/-- A way outwards meets no scope twice, so it is no longer than there are scopes. -/
theorem length_walk_le {path : List ScopeId} (walk : Walk t.enclosing? s path) :
    path.length ≤ t.scopes.size := by
  have distinct : (path.map ScopeId.index).Nodup :=
    walk.nodup.map fun a b same => ScopeId.ext same
  have within : path.map ScopeId.index ⊆ List.range t.scopes.size := by
    intro i member
    obtain ⟨r, inside, rfl⟩ := List.mem_map.mp member
    exact List.mem_range.mpr (hasScope_of_mem_walk walk inside)
  have short := (List.subperm_of_subset distinct within).length_le
  rwa [List.length_map, List.length_range] at short

theorem length_walk_le_outwardSteps {path : List ScopeId} (walk : Walk t.enclosing? s path) :
    path.length ≤ t.outwardSteps := Nat.le_succ_of_le (length_walk_le walk)

/-- The path from a scope is the way outwards. -/
theorem enclosingPath_eq_ok_iff {path : List ScopeId} :
    t.enclosingPath s = .ok path ↔ Walk t.enclosing? s path :=
  ⟨walk_of_pathWithin, fun walk => pathWithin_of_walk walk (length_walk_le_outwardSteps walk)⟩

/-- A body that encloses nothing on the way from `s` can be put inside `s`. -/
theorem Consistent.rooted_placed (consistent : t.Consistent) (admits : Admits t s x a c)
    {r : ScopeId} (given : t.HasScope r) :
    ∃ path, Walk (t.placed s x a c).enclosing? r path := by
  obtain ⟨path, walk⟩ := consistent.rooted given
  have old : ∀ q o, a.form.body? ≠ some q → t.enclosing? q = .ok o →
      (t.placed s x a c).enclosing? q = .ok o := by
    intro q o other goes
    obtain ⟨d, read, inside⟩ := enclosing?_eq_ok_iff.mp goes
    refine enclosing?_eq_ok_iff.mpr ⟨_, scope_placed read, ?_⟩
    rw [enclosing_placedScope, if_neg other, inside]
  cases body : a.form.body? with
  | none => exact ⟨path, walk.mono fun q o goes => old q o (by simp [body]) goes⟩
  | some b =>
    have apart : ∀ {q}, q ≠ b → a.form.body? ≠ some q := by
      intro q other same
      exact other (Option.some.inj (same.symm.trans body))
    have kept : ∀ {q l}, Walk t.enclosing? q l → b ∉ l →
        ∀ p ∈ l, (t.placed s x a c).enclosing? p = t.enclosing? p := by
      intro q l walk without p member
      obtain ⟨d, read⟩ := hasScope_iff.mp (hasScope_of_mem_walk walk member)
      have other : p ≠ b := fun same => without (same ▸ member)
      rw [enclosing?_of_scope read]
      exact old p _ (apart other) (enclosing?_of_scope read)
    by_cases inside : b ∈ path
    · -- the body was the end of the way so far; the way from `s` is appended
      obtain ⟨d, read, _, outer⟩ := consistent.body admits.symbol body
      have stop : t.enclosing? b = .ok none := by
        rw [enclosing?_of_scope read, outer, Symbol.owningScope?, admits.undefined]
        rfl
      have last : path.getLast? = some b := by
        obtain ⟨before, after, split, rest⟩ := walk.from_mem inside
        rw [split, rest.unique (.stop stop)]
        simp
      obtain ⟨route, found, without⟩ := admits.outside b body
      have route' := enclosingPath_eq_ok_iff.mp found
      have joined : (t.placed s x a c).enclosing? b = .ok (some s) := by
        refine enclosing?_eq_ok_iff.mpr ⟨_, scope_placed read, ?_⟩
        rw [enclosing_placedScope, if_pos body]
      have agree : ∀ p ∈ path, p ≠ b →
          (t.placed s x a c).enclosing? p = t.enclosing? p := by
        intro p member other
        obtain ⟨d, read⟩ := hasScope_iff.mp (hasScope_of_mem_walk walk member)
        rw [enclosing?_of_scope read]
        exact old p _ (apart other) (enclosing?_of_scope read)
      exact ⟨_, walk.append last _ agree joined (route'.congr (kept route' without))⟩
    · exact ⟨path, walk.congr (kept walk inside)⟩

theorem Admits.homeless (admits : Admits t s x a c) : a.owningScope? = none := by
  rw [Symbol.owningScope?, admits.undefined]
  rfl

/-- Who is listed somewhere is not the symbol that is still to be defined. -/
theorem Consistent.ne_of_listed (consistent : t.Consistent) (admits : Admits t s x a c)
    {r : ScopeId} {d : Scope} {y : SymbolId} (read : t.scope r = .ok d) (listed : y ∈ d.members) :
    x ≠ y := by
  rintro rfl
  obtain ⟨b, symbol, placed, _⟩ := consistent.member read listed
  cases Except.ok.inj (admits.symbol.symm.trans symbol)
  rw [admits.homeless] at placed
  cases placed

/-- The bodies are still around what they were, and that of `x` is now in `s`. -/
theorem Consistent.body_placed (consistent : t.Consistent) (admits : Admits t s x a c)
    {y : SymbolId} {e : Symbol} {r : ScopeId} (symbol : t.symbol y = .ok e)
    (body : e.form.body? = some r) :
    ∃ d, (t.placed s x a c).scope r = .ok d ∧ d.owner? = some y ∧
      d.enclosing = (placedSymbol s x c y e).owningScope? := by
  obtain ⟨d, read, owned, inside⟩ := consistent.body symbol body
  refine ⟨_, scope_placed read, by rw [owner?_placedScope, owned], ?_⟩
  rw [enclosing_placedScope, owningScope?_placedSymbol, inside]
  by_cases same : x = y
  · subst same
    cases Except.ok.inj (admits.symbol.symm.trans symbol)
    rw [if_pos body, if_pos rfl]
  · -- a body has one owner, so it is not the body of `x`
    have other : a.form.body? ≠ some r := by
      intro body'
      obtain ⟨d', read', owned', _⟩ := consistent.body admits.symbol body'
      cases Except.ok.inj (read.symm.trans read')
      exact same (Option.some.inj (owned'.symm.trans owned))
    rw [if_neg other, if_neg same]

/-- Who was listed is still found by its name. -/
theorem Consistent.member_placed (consistent : t.Consistent) (admits : Admits t s x a c)
    {r : ScopeId} {d : Scope} {y : SymbolId} (read : t.scope r = .ok d) (listed : y ∈ d.members) :
    ∃ b, (t.placed s x a c).symbol y = .ok b ∧ b.owningScope? = some r ∧
      (placedScope s x a r d).find? b.name = some y := by
  obtain ⟨e, symbol, placed, found⟩ := consistent.member read listed
  have other := consistent.ne_of_listed admits read listed
  refine ⟨_, symbol_placed symbol, ?_, ?_⟩
  · rw [owningScope?_placedSymbol, if_neg other, placed]
  · rw [name_placedSymbol, find?_placedScope, if_neg, found]
    rintro ⟨rfl, same⟩
    cases Except.ok.inj (admits.scope.symm.trans read)
    rw [← same, admits.unnamed] at found
    cases found

theorem Consistent.placed (consistent : t.Consistent) (admits : Admits t s x a c) :
    (t.placed s x a c).Consistent := by
  constructor
  case enclosing =>
    intro r d o read inside
    obtain ⟨d₀, read₀, rfl⟩ := of_scope_placed read
    rw [HasScope, size_scopes_placed]
    rw [enclosing_placedScope] at inside
    split at inside
    · cases inside
      exact hasScope_iff.mpr ⟨c, admits.scope⟩
    · exact consistent.enclosing read₀ inside
  case rooted =>
    intro r given
    rw [HasScope, size_scopes_placed] at given
    exact consistent.rooted_placed admits given
  case owner =>
    intro r d y read owned
    obtain ⟨d₀, read₀, rfl⟩ := of_scope_placed read
    rw [owner?_placedScope] at owned
    obtain ⟨e, symbol, body⟩ := consistent.owner read₀ owned
    exact ⟨_, symbol_placed symbol, by rw [form_placedSymbol, body]⟩
  case body =>
    intro y e r symbol body
    obtain ⟨e₀, symbol₀, rfl⟩ := of_symbol_placed symbol
    rw [form_placedSymbol] at body
    exact consistent.body_placed admits symbol₀ body
  case home =>
    intro y e r symbol placed
    obtain ⟨e₀, symbol₀, rfl⟩ := of_symbol_placed symbol
    rw [owningScope?_placedSymbol] at placed
    split at placed
    · rename_i same
      cases placed
      exact ⟨_, scope_placed admits.scope, by simp [members_placedScope, same]⟩
    · obtain ⟨d, read, listed⟩ := consistent.home symbol₀ placed
      refine ⟨_, scope_placed read, ?_⟩
      rw [members_placedScope]
      split
      · exact Array.mem_push.mpr (.inl listed)
      · exact listed
  case member =>
    intro r d y read listed
    obtain ⟨d₀, read₀, rfl⟩ := of_scope_placed read
    rw [members_placedScope] at listed
    split at listed
    · rename_i here
      rcases Array.mem_push.mp listed with listed | rfl
      · exact consistent.member_placed admits read₀ listed
      · refine ⟨_, symbol_placed admits.symbol, ?_, ?_⟩
        · rw [owningScope?_placedSymbol, if_pos rfl, here]
        · rw [name_placedSymbol, find?_placedScope, if_pos ⟨here, rfl⟩]
    · exact consistent.member_placed admits read₀ listed
  case found =>
    intro r d n y read found
    obtain ⟨d₀, read₀, rfl⟩ := of_scope_placed read
    rw [find?_placedScope] at found
    rw [members_placedScope]
    split at found
    · rename_i here
      cases found
      refine ⟨by simp [here.1], _, symbol_placed admits.symbol, ?_⟩
      rw [name_placedSymbol, here.2]
    · obtain ⟨listed, e, symbol, name⟩ := consistent.found read₀ found
      refine ⟨?_, _, symbol_placed symbol, by rw [name_placedSymbol, name]⟩
      split
      · exact Array.mem_push.mpr (.inl listed)
      · exact listed
  case distinct =>
    intro r d read
    obtain ⟨d₀, read₀, rfl⟩ := of_scope_placed read
    rw [members_placedScope]
    split
    · rw [Array.toList_push]
      refine List.nodup_append.mpr ⟨consistent.distinct read₀, by simp, ?_⟩
      intro y listed z last same
      rw [List.mem_singleton.mp last] at same
      exact consistent.ne_of_listed admits read₀ (Array.mem_toList_iff.mp listed) same.symm
    · exact consistent.distinct read₀

theorem Consistent.change {kinds : Kind → Prop} (consistent : t.Consistent)
    (change : Change kinds t u) : u.Consistent := by
  refine change.keeps_shape consistent (fun same consistent => consistent.sameShape same) ?_ ?_ ?_
  · exact consistent.declare
  · exact consistent.openScope
  · exact consistent.placed

/-- What every elementary change of a consistent table keeps, any number of them keep. -/
theorem Changes.keeps_of_consistent {kinds : Kind → Prop} {P : Table → Prop}
    (changes : Changes kinds t u) (consistent : t.Consistent) (start : P t)
    (step : ∀ t u, t.Consistent → P t → Change kinds t u → P u) : u.Consistent ∧ P u :=
  changes.keeps (P := fun t => t.Consistent ∧ P t) ⟨consistent, start⟩ fun t u before change =>
    ⟨before.1.change change, step t u before.1 before.2 change⟩

/-- Every reachable table is consistent. -/
theorem Reachable.consistent (reachable : t.Reachable) : t.Consistent :=
  reachable.keeps consistent_new fun _ _ consistent change => consistent.change change

end Table

end Scoping
