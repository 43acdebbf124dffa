import Scoping.Proofs.Carried
import Scoping.Proofs.Gathering
import Scoping.Proofs.Inward
import Scoping.Proofs.Waiting

/-!
# What lies below a scope

The scopes below a scope are those from which one comes to it outwards, unless a block on the
way still waits. The symbols below it are those from which one comes to it by way of owners
only. Both are listed once, level by level, and the bodies of the listed symbols are the
bodies below the scope.
-/

namespace Scoping

namespace Table

variable {t u : Table} {r s p q : ScopeId} {x : SymbolId} {l : List ScopeId}

/-! ### The walks inwards -/

theorem gathered_of_belowWithin {direct : ScopeId → Answer (List ScopeId)} {depth : Nat}
    (listed : belowWithin direct depth s = .ok l) : Gathered direct direct s l := by
  refine Gathered.of_answer (by rintro s l ⟨⟩) (fun depth s => ?_) listed
  rw [belowWithin]
  cases direct s <;> rfl

theorem gathered_of_allSymbols {l : List SymbolId} (listed : t.allSymbols s = .ok l) :
    Gathered t.symbolsOf t.bodiesOf s l :=
  Gathered.of_answer (by rintro s l ⟨⟩) (fun _ _ => rfl) listed

/-- Scopes are listed in the scope around them. -/
theorem Consistent.treelike (consistent : t.Consistent) (forest : t.Forest) :
    Treelike t.nestedScopes t.nestedScopes t.enclosing? t.enclosing? := by
  have once : ∀ {s l}, t.nestedScopes s = .ok l → l.Nodup := by
    intro s l listed
    obtain ⟨c, read, rfl⟩ := consistent.nestedScopes_eq_ok_iff.mp listed
    exact consistent.nodup_nestedScopes forest read
  have outward : ∀ {s l q}, t.nestedScopes s = .ok l → q ∈ l → t.enclosing? q = .ok (some s) :=
    fun listed member => ((consistent.mem_nestedScopes_iff forest listed).mp member).1
  refine ⟨once, once, outward, ?_, ?_⟩
  · rintro s q ⟨l, listed, member⟩
    exact outward listed member
  · rintro s q ⟨l, listed, member⟩
    exact consistent.rooted (hasScope_of_enclosing? (outward listed member))

/-! ### Scopes below a scope -/

/-- A scope lies on the way outwards from another, and every scope on that way before it is
among those directly inside the scope around it. -/
def LiesBelow (t : Table) (s q : ScopeId) : Prop :=
  ∃ inner outer, t.enclosingPath q = .ok (inner ++ s :: outer) ∧
    ∀ p ∈ inner, ∃ o, t.enclosing? p = .ok (some o) ∧ Inside t.nestedScopes o p

theorem Consistent.liesBelow_iff (consistent : t.Consistent) (forest : t.Forest)
    (given : t.HasScope s) :
    t.LiesBelow s q ↔ Relation.ReflTransGen (Inside t.nestedScopes) s q := by
  constructor
  · rintro ⟨inner, outer, way, attached⟩
    rw [enclosingPath_eq_ok_iff] at way
    -- along the way from `q`, as far as `s`
    induction inner generalizing q with
    | nil =>
      obtain ⟨rest, shape⟩ := way.eq_cons
      cases shape
      exact .refl
    | cons p inner ih =>
      obtain ⟨rest, shape⟩ := way.eq_cons
      cases shape
      obtain ⟨o, goes, inside⟩ := attached p List.mem_cons_self
      obtain ⟨rest, shape, further⟩ := way.further goes
      cases shape
      exact (ih further fun p member => attached p (List.mem_cons_of_mem _ member)).tail inside
  · intro leads
    induction leads with
    | refl =>
      obtain ⟨path, walk⟩ := consistent.rooted given
      obtain ⟨outer, rfl⟩ := walk.eq_cons
      exact ⟨[], outer, enclosingPath_eq_ok_iff.mpr walk, by simp⟩
    | @tail o q _ last ih =>
      obtain ⟨inner, outer, way, attached⟩ := ih
      have goes := (consistent.treelike forest).outward last
      refine ⟨q :: inner, outer, ?_, fun p member => ?_⟩
      · exact enclosingPath_eq_ok_iff.mpr (.step goes (enclosingPath_eq_ok_iff.mp way))
      · rcases List.mem_cons.mp member with rfl | member
        · exact ⟨o, goes, last⟩
        · exact attached p member

/-- What is listed below a scope is attached below it, and nothing is listed twice. -/
theorem Consistent.allNestedScopes_eq (consistent : t.Consistent) (forest : t.Forest)
    (given : t.HasScope s) : ∃ l, t.allNestedScopes s = .ok l ∧
      Gathered t.nestedScopes t.nestedScopes s l ∧ l.Nodup ∧
      ∀ q, q ∈ l ↔ q ≠ s ∧ t.LiesBelow s q := by
  have tree := consistent.treelike forest
  obtain ⟨l, listed, _⟩ := consistent.exists_below
    (fun s given => consistent.exists_nestedScopes forest given) given
  have gathered := gathered_of_belowWithin listed
  refine ⟨l, listed, gathered, tree.nodup gathered, fun q => ?_⟩
  rw [gathered.mem_iff_transGen, consistent.liesBelow_iff forest given, tree.transGen_iff]

/-! ### Nesting again -/

theorem modifyScope_eq_self {c : Scope} {f : Scope → Scope} (read : t.scope s = .ok c)
    (same : f c = c) : t.modifyScope s f = t := by
  have scopes : t.scopes.modify s.index f = t.scopes := by
    refine Array.ext_getElem? fun i => ?_
    rw [Array.getElem?_modify]
    split
    · rename_i here
      rw [← here, scope_eq_ok_iff.mp read, Option.map_some, same]
    · rfl
  rw [modifyScope, scopes]

/-- A nested block is a block of the scope that encloses it, which lists it. -/
theorem Consistent.nested_block (consistent : t.Consistent) (inside : Inside t.nestedScopes p q)
    (free : t.scopeOwner? q = .ok none) : ∃ c, t.scope p = .ok c ∧ q ∈ c.blocks := by
  obtain ⟨l, listed, member⟩ := inside
  obtain ⟨c, read, rfl⟩ := consistent.nestedScopes_eq_ok_iff.mp listed
  refine ⟨c, read, ?_⟩
  rcases List.mem_append.mp member with body | block
  · obtain ⟨d, x, there, owner, _⟩ := (consistent.mem_bodies_iff read).mp body
    rw [scopeOwner?_of_scope there, owner] at free
    cases free
  · exact Array.mem_toList_iff.mp block

/-- Nesting a nested block is carried out without effect, and refused in any other scope. -/
theorem Consistent.apply_nest_again (consistent : t.Consistent) (forest : t.Forest)
    (inside : Inside t.nestedScopes p q) (free : t.scopeOwner? q = .ok none)
    (given : t.HasScope r) :
    ∃ outcome, t.apply (.nest r q) = .ok (outcome, t) ∧ (outcome = .ok .done ↔ r = p) := by
  obtain ⟨c, read, listed⟩ := consistent.nested_block inside free
  obtain ⟨d, there, owner, outer⟩ := forest.block read listed
  have again : t.nest p q = .ok (.ok t) := nest_eq_ok_iff.mpr
    ⟨d, c, there, owner, outer, read, (modifyScope_eq_self read (Scope.nest_of_mem listed)).symm⟩
  obtain ⟨result, nested⟩ := consistent.exists_nest given (hasScope_iff.mpr ⟨d, there⟩)
  rw [apply, nested]
  cases result with
  | error refusal =>
    refine ⟨_, rfl, iff_of_false (fun answer => by cases answer) ?_⟩
    rintro rfl
    cases again.symm.trans nested
  | ok u =>
    obtain ⟨d', _, there', _, outer', _⟩ := nest_eq_ok_iff.mp nested
    cases there.symm.trans there'
    cases outer.symm.trans outer'
    cases again.symm.trans nested
    exact ⟨_, rfl, iff_of_true rfl rfl⟩

/-- A block that was nested is among the scopes directly inside. -/
theorem Consistent.inside_of_nest (consistent : u.Consistent)
    (nested : t.nest p q = .ok (.ok u)) :
    u.HasScope p ∧ Inside u.nestedScopes p q ∧ u.scopeOwner? q = .ok none := by
  obtain ⟨d, c, there, owner, _, read, rfl⟩ := nest_eq_ok_iff.mp nested
  have here : (t.modifyScope p (·.nest q)).scope p = .ok (c.nest q) :=
    scope_nest_iff.mpr ⟨c, read, (if_pos rfl).symm⟩
  have last : q ∈ (c.nest q).blocks := Scope.mem_blocks_nest.mpr (.inr rfl)
  refine ⟨hasScope_iff.mpr ⟨_, here⟩, ⟨_, consistent.nestedScopes_eq here, ?_⟩, ?_⟩
  · exact List.mem_append_right _ (Array.mem_toList_iff.mpr last)
  · rw [scopeOwner?_of_scope (scope_nest_iff.mpr ⟨d, there, rfl⟩)]
    split <;> simp [owner]

/-- In every reachable table the scopes attached below a scope are listed, each once and after
the scope around it. To nest a block again changes nothing. -/
theorem Reachable.descendants (reachable : t.Reachable) :
    (∀ s, t.HasScope s → ∃ l, t.allNestedScopes s = .ok l ∧ l.Nodup ∧ s ∉ l ∧
      (∀ q, q ∈ l ↔ q ≠ s ∧ t.LiesBelow s q) ∧
      ∀ q ∈ l, ∃ o, t.enclosing? q = .ok (some o) ∧ (o = s ∨ [o, q].Sublist l)) ∧
    (∀ p q, Inside t.nestedScopes p q → t.scopeOwner? q = .ok none → ∀ r, t.HasScope r →
      ∃ outcome, t.apply (.nest r q) = .ok (outcome, t) ∧ (outcome = .ok .done ↔ r = p)) ∧
    ∀ p q u, t.apply (.nest p q) = .ok (.ok .done, u) →
      Inside u.nestedScopes p q ∧ u.scopeOwner? q = .ok none ∧
      u.apply (.nest p q) = .ok (.ok .done, u) := by
  have consistent := reachable.consistent
  have forest := reachable.forest
  refine ⟨fun s given => ?_, fun p q inside free r given => ?_, fun p q u applied => ?_⟩
  · obtain ⟨l, listed, gathered, once, below⟩ := consistent.allNestedScopes_eq forest given
    refine ⟨l, listed, once, fun member => ((below s).mp member).1 rfl, below, ?_⟩
    intro q member
    obtain ⟨o, inside, order⟩ := gathered.after member
    exact ⟨o, (consistent.treelike forest).outward inside, order⟩
  · exact consistent.apply_nest_again forest inside free given
  · obtain ⟨result, nested, answer⟩ := Answer.bind_eq_ok_iff.mp applied
    cases result with
    | error refusal => cases answer
    | ok v =>
      cases answer
      have changes : Changes (fun _ => True) t u := changes_of_nest nested
      obtain ⟨consistent', forest'⟩ := changes.forest ⟨consistent, forest⟩
      obtain ⟨given, inside, free⟩ := consistent'.inside_of_nest nested
      obtain ⟨outcome, again, done⟩ :=
        consistent'.apply_nest_again forest' inside free given
      rw [done.mpr rfl] at again
      exact ⟨inside, free, again⟩

/-- A function whose body is entered before it is defined. In the body a block that stays
detached with a block in it, and a block that is nested late; beside it a struct. -/
def hollow : Run where
  config := {}
  operations := [
    .declare "f" (.function none), .openScope ⟨2⟩, .openBlock ⟨3⟩, .openScope ⟨2⟩,
    .declare "s" .structType, .define ⟨1⟩ ⟨1⟩, .define ⟨1⟩ ⟨0⟩, .nest ⟨2⟩ ⟨5⟩]
  accepted := by decide +kernel

theorem hollow_descendants : hollow.final.Reachable ∧
    (∃ l, hollow.final.allNestedScopes .predefined = .ok l ∧ l.Nodup ∧
      ∀ q ∈ l, ∃ o, hollow.final.enclosing? q = .ok (some o) ∧
        (o = .predefined ∨ [o, q].Sublist l)) ∧
    hollow.final.allNestedScopes .predefined = .ok [⟨1⟩, ⟨6⟩, ⟨2⟩, ⟨5⟩] ∧
    hollow.final.enclosing? ⟨4⟩ = .ok (some ⟨3⟩) ∧ ¬ hollow.final.LiesBelow .predefined ⟨4⟩ ∧
    ∃ outcome, hollow.final.apply (.nest ⟨2⟩ ⟨5⟩) = .ok (outcome, hollow.final) := by
  have reachable := hollow.reachable hollow.operations.length
  obtain ⟨lists, again, _⟩ := Reachable.descendants reachable
  obtain ⟨l, listed, once, _, below, order⟩ := lists .predefined (by decide +kernel)
  have known : hollow.final.allNestedScopes .predefined = .ok [⟨1⟩, ⟨6⟩, ⟨2⟩, ⟨5⟩] := by
    decide +kernel
  refine ⟨reachable, ⟨l, listed, once, order⟩, known, by decide +kernel, fun attached => ?_, ?_⟩
  · cases Except.ok.inj (listed.symm.trans known)
    have member := (below ⟨4⟩).mpr ⟨by decide, attached⟩
    simp at member
  · obtain ⟨outcome, kept, _⟩ := again ⟨2⟩ ⟨5⟩ ⟨[⟨5⟩], by decide +kernel, by simp⟩
      (by decide +kernel) ⟨2⟩ (by decide +kernel)
    exact ⟨outcome, kept⟩

/-! ### Symbols below a scope -/

/-- From a body one goes on to the scope where its owner is defined. From a block one does not
go on, nor from the body of an undefined symbol. -/
def ownerHome? (t : Table) (s : ScopeId) : Answer (Option ScopeId) := do
  match ← t.scopeOwner? s with
  | none => return none
  | some x => t.owningScope? x

namespace Consistent

/-- The home of an owner is the scope around the body. -/
theorem ownerHome?_eq (consistent : t.Consistent) {d : Scope} (read : t.scope q = .ok d) :
    t.ownerHome? q = .ok (if d.owner?.isSome then d.enclosing else none) := by
  rw [ownerHome?, scopeOwner?_of_scope read, Answer.ok_bind]
  cases owner : d.owner? with
  | none => rfl
  | some x =>
    obtain ⟨a, symbol, body⟩ := consistent.owner read owner
    obtain ⟨d', read', _, home⟩ := consistent.body symbol body
    cases Except.ok.inj (read.symm.trans read')
    exact owningScope?_eq_ok_iff.mpr ⟨a, symbol, home.symm⟩

/-- The bodies of the members of a scope are those whose owner is at home there. -/
theorem inside_bodiesOf_iff (consistent : t.Consistent) :
    Inside t.bodiesOf p q ↔ t.ownerHome? q = .ok (some p) := by
  constructor
  · rintro ⟨l, listed, member⟩
    obtain ⟨c, read, rfl⟩ := consistent.bodiesOf_eq_ok_iff.mp listed
    obtain ⟨d, x, there, owner, inside⟩ := (consistent.mem_bodies_iff read).mp member
    rw [consistent.ownerHome?_eq there, owner, inside]
    rfl
  · intro home
    obtain ⟨_, known, _⟩ := Answer.bind_eq_ok_iff.mp home
    obtain ⟨d, there, _⟩ := Answer.bind_eq_ok_iff.mp known
    rw [consistent.ownerHome?_eq there, Except.ok.injEq] at home
    cases owner : d.owner? with
    | none => simp [owner] at home
    | some x =>
      have inside : d.enclosing = some p := by simpa [owner] using home
      obtain ⟨c, read⟩ := hasScope_iff.mp (consistent.enclosing there inside)
      exact ⟨_, consistent.bodiesOf_eq read,
        (consistent.mem_bodies_iff read).mpr ⟨d, x, there, owner, inside⟩⟩

/-- The way from owner to owner ends, as it leaves out nothing of the way outwards but its
last part. -/
theorem exists_walk_ownerHome? (consistent : t.Consistent) (given : t.HasScope s) :
    ∃ path, Walk t.ownerHome? s path := by
  obtain ⟨path, walk⟩ := consistent.rooted given
  induction walk with
  | @stop s ends =>
    obtain ⟨d, read, outer⟩ := enclosing?_eq_ok_iff.mp ends
    refine ⟨[s], .stop ?_⟩
    rw [consistent.ownerHome?_eq read, outer]
    simp
  | @step s o path goes further ih =>
    obtain ⟨d, read, outer⟩ := enclosing?_eq_ok_iff.mp goes
    have home := consistent.ownerHome?_eq read
    by_cases body : d.owner?.isSome
    · obtain ⟨path, walk⟩ := ih (consistent.enclosing read outer)
      exact ⟨s :: path, .step (by rw [home, if_pos body, outer]) walk⟩
    · exact ⟨[s], .stop (by rw [home, if_neg body])⟩

/-- Symbols are listed where they are defined, and bodies where their owners are. -/
theorem treelike_symbolsOf (consistent : t.Consistent) (forest : t.Forest) :
    Treelike t.symbolsOf t.bodiesOf t.owningScope? t.ownerHome? where
  once := consistent.nodup_symbolsOf
  apart := by
    intro s l listed
    obtain ⟨c, read, rfl⟩ := consistent.bodiesOf_eq_ok_iff.mp listed
    exact (consistent.nodup_nestedScopes forest read).of_append_left
  home listed member := (consistent.mem_symbolsOf_iff listed).mp member
  outward := consistent.inside_bodiesOf_iff.mp
  ends := by
    intro s q inside
    obtain ⟨_, known, _⟩ := Answer.bind_eq_ok_iff.mp (consistent.inside_bodiesOf_iff.mp inside)
    obtain ⟨d, read, _⟩ := Answer.bind_eq_ok_iff.mp known
    exact consistent.exists_walk_ownerHome? (hasScope_iff.mpr ⟨d, read⟩)

/-- The symbols below a scope are those from which one comes to it from owner to owner. -/
theorem mem_allSymbols_iff (consistent : t.Consistent) {l : List SymbolId}
    (gathered : Gathered t.symbolsOf t.bodiesOf s l) : x ∈ l ↔ ∃ r path,
      t.owningScope? x = .ok (some r) ∧ Walk t.ownerHome? r path ∧ s ∈ path := by
  have step : Inside t.bodiesOf = fun p q => t.ownerHome? q = .ok (some p) := by
    funext p q
    exact propext consistent.inside_bodiesOf_iff
  rw [gathered.mem_iff, step]
  refine exists_congr fun r => ?_
  constructor
  · rintro ⟨here, leads, listed, member⟩
    obtain ⟨c, read, _⟩ := symbolsOf_eq_ok_iff.mp listed
    obtain ⟨path, walk⟩ := consistent.exists_walk_ownerHome? (hasScope_iff.mpr ⟨c, read⟩)
    exact ⟨path, (consistent.mem_symbolsOf_iff listed).mp member, walk, walk.mem_iff.mpr leads⟩
  · rintro ⟨path, home, walk, member⟩
    obtain ⟨a, symbol, owning⟩ := owningScope?_eq_ok_iff.mp home
    obtain ⟨c, read, listed⟩ := consistent.home symbol owning
    exact ⟨c.members.toList, walk.mem_iff.mp member, symbolsOf_eq_ok_iff.mpr ⟨c, read, rfl⟩,
      Array.mem_toList_iff.mpr listed⟩

/-- The bodies of the listed symbols are the bodies below the scope. -/
theorem bodies_of_allSymbols (consistent : t.Consistent) {l : List SymbolId}
    (gathered : Gathered t.symbolsOf t.bodiesOf s l) :
    Gathered t.bodiesOf t.bodiesOf s (l.filterMap t.bodyAt) := by
  refine gathered.filterMap fun r here listed => ?_
  obtain ⟨c, read, rfl⟩ := symbolsOf_eq_ok_iff.mp listed
  exact consistent.bodiesOf_eq read

end Consistent

/-- In every reachable table the symbols below a scope are listed, each once: those from which
one comes to the scope from owner to owner. Their bodies, in the same order, are the listed
bodies below the scope, and these are among the scopes below it in this order. -/
theorem Reachable.symbols_below (reachable : t.Reachable) (given : t.HasScope s) :
    ∃ l, t.allSymbols s = .ok l ∧ l.Nodup ∧
      (∀ x, x ∈ l ↔ ∃ r path, t.owningScope? x = .ok (some r) ∧
        Walk t.ownerHome? r path ∧ s ∈ path) ∧
      ∃ bodies all, l.mapM t.body? = .ok bodies ∧
        t.allBodies s = .ok (bodies.filterMap id) ∧ t.allNestedScopes s = .ok all ∧
        (bodies.filterMap id).Sublist all := by
  have consistent := reachable.consistent
  have forest := reachable.forest
  obtain ⟨l, listed, known⟩ := consistent.exists_allSymbols given
  obtain ⟨inside, below, _⟩ :=
    consistent.exists_below (fun s given => consistent.exists_bodiesOf given) given
  obtain ⟨all, nested, gathered, _⟩ := consistent.allNestedScopes_eq forest given
  have symbols := gathered_of_allSymbols listed
  have bodies := consistent.bodies_of_allSymbols symbols
  cases bodies.unique (gathered_of_belowWithin below)
  have fewer : ∀ r (l m : List ScopeId), t.bodiesOf r = .ok l → t.nestedScopes r = .ok m →
      l.Sublist m := by
    intro r l m here there
    obtain ⟨c, read, rfl⟩ := consistent.bodiesOf_eq_ok_iff.mp here
    cases Except.ok.inj ((consistent.nestedScopes_eq read).symm.trans there)
    exact List.sublist_append_left _ _
  have order := bodies.sublist gathered fewer fewer
  obtain ⟨asked, answered, same⟩ := Answer.bind_eq_ok_iff.mp (bodies_eq known)
  rw [Answer.pure_eq_ok, Except.ok.injEq] at same
  rw [← same] at below order
  exact ⟨l, listed, (consistent.treelike_symbolsOf forest).nodup symbols,
    fun x => consistent.mem_allSymbols_iff symbols, asked, all, answered, below, nested, order⟩

/-- A function with a struct in its body, which has a field, and with a block, which has a
variable. -/
def furnished : Run where
  config := {}
  operations := [
    .declare "f" (.function none), .define .global ⟨0⟩, .declare "s" .structType,
    .define ⟨2⟩ ⟨1⟩, .declare "x" (.field none), .define ⟨3⟩ ⟨2⟩, .openBlock ⟨2⟩,
    .declare "y" (.var none), .define ⟨4⟩ ⟨3⟩]
  accepted := by decide +kernel

theorem furnished_symbols_below :
    furnished.final.Reachable ∧ furnished.final.HasScope .global ∧
    furnished.final.allSymbols .global = .ok [⟨0⟩, ⟨1⟩, ⟨2⟩] ∧
    (∃ r path, furnished.final.owningScope? ⟨2⟩ = .ok (some r) ∧
      Walk furnished.final.ownerHome? r path ∧ ScopeId.global ∈ path) ∧
    furnished.final.owningScope? ⟨3⟩ = .ok (some ⟨4⟩) ∧
    (∃ (bodies : List (Option ScopeId)) (all : List ScopeId),
      furnished.final.allBodies .global = .ok (bodies.filterMap id) ∧
      furnished.final.allNestedScopes .global = .ok all ∧ (bodies.filterMap id).Sublist all) ∧
    furnished.final.allBodies .global = .ok [⟨2⟩, ⟨3⟩] ∧
    furnished.final.allNestedScopes .global = .ok [⟨2⟩, ⟨3⟩, ⟨4⟩] := by
  have reachable := furnished.reachable furnished.operations.length
  have given : furnished.final.HasScope .global := by decide +kernel
  obtain ⟨l, listed, _, below, bodies, all, _, only, nested, order⟩ :=
    Reachable.symbols_below reachable given
  have known : furnished.final.allSymbols .global = .ok [⟨0⟩, ⟨1⟩, ⟨2⟩] := by decide +kernel
  cases Except.ok.inj (listed.symm.trans known)
  exact ⟨reachable, given, known, (below ⟨2⟩).mp (by simp), by decide +kernel,
    ⟨bodies, all, only, nested, order⟩, by decide +kernel, by decide +kernel⟩

end Table

end Scoping
