import Scoping.Proofs.Forest

/-!
# Blocks that wait

A block may be opened in a scope without being listed there. It then waits until an
operation nests it, and nothing else that a scope encloses is ever missing from its list.
-/

namespace Scoping

namespace Table

variable {t u : Table} {r s q parent block : ScopeId} {x : SymbolId} {a : Symbol}
  {c d : Scope}

theorem waits_congr (scopes : u.scopes = t.scopes) : u.Waits s q ↔ t.Waits s q := by
  rw [Waits, Waits, scope_congr scopes]

/-- An added scope waits when it is a block, and those before wait as they did. -/
theorem Forest.waits_push (forest : t.Forest) (pushed : u.scopes = t.scopes.push d)
    (empty : d.blocks = #[]) : u.Waits s q ↔
      t.Waits s q ∨ q = ⟨t.scopes.size⟩ ∧ d.owner? = none ∧ d.enclosing = some s := by
  constructor
  · rintro ⟨⟨e, read, free, inside⟩, unlisted⟩
    rcases (scope_push_iff pushed).mp read with old | ⟨rfl, rfl⟩
    · refine .inl ⟨⟨e, old, free, inside⟩, fun c known => ?_⟩
      exact unlisted c ((scope_push_iff pushed).mpr (.inl known))
    · exact .inr ⟨rfl, free, inside⟩
  · rintro (⟨⟨e, read, free, inside⟩, unlisted⟩ | ⟨rfl, free, inside⟩)
    · refine ⟨⟨e, (scope_push_iff pushed).mpr (.inl read), free, inside⟩, fun c known => ?_⟩
      rcases (scope_push_iff pushed).mp known with old | ⟨_, rfl⟩
      · exact unlisted c old
      · simp [empty]
    · refine ⟨⟨d, (scope_push_iff pushed).mpr (.inr ⟨rfl, rfl⟩), free, inside⟩, ?_⟩
      intro c known member
      rcases (scope_push_iff pushed).mp known with old | ⟨_, rfl⟩
      · -- a listed block was there before
        obtain ⟨e, read, _⟩ := forest.block old member
        simp [scope_eq_ok_iff] at read
      · simp [empty] at member

theorem Forest.waits_openScope (forest : t.Forest) (r : ScopeId) :
    (t.openScope r).2.Waits s q ↔ t.Waits s q ∨ q = (t.openScope r).1 ∧ r = s := by
  rw [forest.waits_push (d := { kind := .block, enclosing := some r }) rfl rfl, Option.some.injEq]
  exact or_congr_right (and_congr_right fun _ => and_iff_right rfl)

theorem Forest.waits_declare {text : String} {spec : Spec} (forest : t.Forest)
    (declared : t.declare text spec = .ok (x, u)) : u.Waits s q ↔ t.Waits s q := by
  obtain ⟨_, _, name, form, _, fresh⟩ := declare_eq_ok declared
  rcases fresh.body with ⟨_, same⟩ | ⟨_, pushed⟩
  · exact waits_congr same
  · rw [forest.waits_push pushed rfl]
    constructor
    · rintro (before | ⟨_, free, _⟩)
      · exact before
      · cases free
    · exact Or.inl

theorem waits_nest (given : t.HasScope parent) : (t.modifyScope parent (·.nest block)).Waits s q ↔
    t.Waits s q ∧ ¬ (parent = s ∧ block = q) := by
  constructor
  · rintro ⟨⟨e, read, free, inside⟩, unlisted⟩
    obtain ⟨d, read₀, rfl⟩ := scope_nest_iff.mp read
    have same : ∀ {β : Type} (f : Scope → β), f (d.nest block) = f d →
        f (if parent = q then d.nest block else d) = f d := by
      intro β f kept
      split
      · exact kept
      · rfl
    rw [same Scope.owner? Scope.owner?_nest] at free
    rw [same Scope.enclosing Scope.enclosing_nest] at inside
    refine ⟨⟨⟨d, read₀, free, inside⟩, fun c known member => ?_⟩, ?_⟩
    · refine unlisted _ (scope_nest_iff.mpr ⟨c, known, rfl⟩) ?_
      split
      · exact Scope.mem_blocks_nest.mpr (.inl member)
      · exact member
    · rintro ⟨rfl, rfl⟩
      obtain ⟨c, known⟩ := hasScope_iff.mp given
      refine unlisted _ (scope_nest_iff.mpr ⟨c, known, rfl⟩) ?_
      rw [if_pos rfl]
      exact Scope.mem_blocks_nest.mpr (.inr rfl)
  · rintro ⟨⟨⟨d, read, free, inside⟩, unlisted⟩, apart⟩
    refine ⟨⟨_, scope_nest_iff.mpr ⟨d, read, rfl⟩, ?_, ?_⟩, fun e known member => ?_⟩
    · split <;> simp [free]
    · split <;> simp [inside]
    · obtain ⟨c, known₀, rfl⟩ := scope_nest_iff.mp known
      split at member
      · rename_i here
        rcases Scope.mem_blocks_nest.mp member with old | rfl
        · exact unlisted c known₀ old
        · exact apart ⟨here, rfl⟩
      · exact unlisted c known₀ member

/-- A definition moves bodies only. -/
theorem Consistent.waits_placed (consistent : t.Consistent) (admits : Admits t r x a c) :
    (t.placed r x a c).Waits s q ↔ t.Waits s q := by
  have apart : ∀ {q d}, t.scope q = .ok d → d.owner? = none →
      (placedScope r x a q d).enclosing = d.enclosing := consistent.enclosing_of_free admits
  constructor
  · rintro ⟨⟨e, read, free, inside⟩, unlisted⟩
    obtain ⟨d, read₀, rfl⟩ := of_scope_placed read
    rw [owner?_placedScope] at free
    rw [apart read₀ free] at inside
    refine ⟨⟨d, read₀, free, inside⟩, fun e known member => ?_⟩
    refine unlisted _ (scope_placed known) ?_
    rwa [blocks_placedScope]
  · rintro ⟨⟨d, read, free, inside⟩, unlisted⟩
    refine ⟨⟨_, scope_placed read, owner?_placedScope.trans free, (apart read free).trans inside⟩,
      fun e known member => ?_⟩
    obtain ⟨c, known₀, rfl⟩ := of_scope_placed known
    rw [blocks_placedScope] at member
    exact unlisted c known₀ member

theorem Consistent.waits_define (consistent : t.Consistent)
    (defined : t.define r x = .ok (.ok u)) : u.Waits s q ↔ t.Waits s q := by
  obtain ⟨a, c, admits, assigned⟩ := define_eq_ok defined
  obtain ⟨symbols, rfl, _⟩ := assignSlotIn_unnumbered assigned
  exact (waits_congr rfl).trans (consistent.waits_placed admits)

theorem setTypeIndex_types {index : Nat} (set : t.setTypeIndex x index = .ok u) :
    ∃ types, u = { t with types } := by
  obtain ⟨type, _, set⟩ := Answer.bind_eq_ok_iff.mp set
  cases type <;> cases set <;> exact ⟨_, rfl⟩

theorem setType_symbols {type : TypeId} (set : t.setType x type = .ok (.ok u)) :
    ∃ symbols, u = { t with symbols } := by
  obtain ⟨a, _, set⟩ := Answer.bind_eq_ok_iff.mp set
  split at set
  · cases set
    exact ⟨_, rfl⟩
  · cases set

/-- A block that is listed at once does not wait. -/
theorem Forest.waits_openBlock (forest : t.Forest) (given : t.HasScope r)
    (opened : t.openBlock r = .ok (block, u)) : u.Waits s q ↔ t.Waits s q := by
  obtain ⟨_, _, opened⟩ := Answer.bind_eq_ok_iff.mp opened
  have same : (t.openScope r).2.modifyScope r (·.nest (t.openScope r).1) = u :=
    congrArg Prod.snd (Except.ok.inj opened)
  have given' : (t.openScope r).2.HasScope r := by
    have small : r.index < t.scopes.size := given
    simp only [HasScope, Table.openScope, addScope, Array.size_push]
    omega
  rw [← same, waits_nest given', forest.waits_openScope]
  constructor
  · rintro ⟨before | ⟨rfl, rfl⟩, apart⟩
    · exact before
    · exact absurd ⟨rfl, rfl⟩ apart
  · refine fun before => ⟨.inl before, ?_⟩
    rintro ⟨rfl, rfl⟩
    obtain ⟨d, read, _⟩ := before.1
    simp [Table.openScope, addScope, scope_eq_ok_iff] at read

theorem Forest.waits_defineBuiltinsFrom {index : Nat} {names : List String}
    {outcome : Except Refusal (List SymbolId)} (both : t.Consistent ∧ t.Forest)
    (defined : t.defineBuiltinsFrom index names = .ok (outcome, u)) :
    u.Waits s q ↔ t.Waits s q := by
  induction names generalizing t index outcome with
  | nil =>
    cases defined
    exact Iff.rfl
  | cons name rest ih =>
    obtain ⟨⟨x, t₁⟩, declared, defined⟩ := Answer.bind_eq_ok_iff.mp defined
    obtain ⟨result, placed, defined⟩ := Answer.bind_eq_ok_iff.mp defined
    have first := both.2.waits_declare (s := s) (q := q) declared
    have made : Changes (fun _ => True) t t₁ := (Change.declare declared).changes
    have both₁ := made.forest both
    cases result with
    | error refusal =>
      cases defined
      exact first
    | ok t₂ =>
      obtain ⟨t₃, numbered, defined⟩ := Answer.bind_eq_ok_iff.mp defined
      obtain ⟨⟨more, t₄⟩, remaining, defined⟩ := Answer.bind_eq_ok_iff.mp defined
      cases defined
      have second := both₁.1.waits_define (s := s) (q := q) placed
      have defining : Changes (fun _ => True) t₁ t₂ :=
        (Change.define placed fun _ _ => trivial).changes
      have numbering : Changes (fun _ => True) t₂ t₃ := changes_of_setTypeIndex numbered
      have both₃ := (defining.trans numbering).forest both₁
      obtain ⟨types, rfl⟩ := setTypeIndex_types numbered
      exact (ih both₃ remaining).trans ((waits_congr rfl).trans (second.trans first))

/-- What opens no block and nests none leaves those that wait as they are. -/
theorem waits_iff_of_quiet {op : Operation} {outcome : Outcome}
    (same : u.Waits s q ↔ t.Waits s q) (opens : op ≠ .openScope s) (nests : op ≠ .nest s q) :
    u.Waits s q ↔ t.Waits s q ∧ ¬ (op = .nest s q ∧ outcome = .ok .done) ∨
      op = .openScope s ∧ outcome = .ok (.scope q) := by
  rw [same]
  simp [opens, nests]

theorem waits_iff_of_refused {op : Operation} {refusal : Refusal} :
    t.Waits s q ↔ t.Waits s q ∧ ¬ (op = .nest s q ∧ Except.error refusal = .ok Reply.done) ∨
      op = .openScope s ∧ Except.error refusal = .ok (Reply.scope q) := by
  simp

/-- A block waits after an operation if it was opened by it, or waited before and was not
nested by it. -/
theorem Forest.waits_apply {op : Operation} {outcome : Outcome} (forest : t.Forest)
    (consistent : t.Consistent) (proper : op.Proper t) (applied : t.apply op = .ok (outcome, u)) :
    u.Waits s q ↔ t.Waits s q ∧ ¬ (op = .nest s q ∧ outcome = .ok .done) ∨
      op = .openScope s ∧ outcome = .ok (.scope q) := by
  cases op with
  | declare text spec =>
    obtain ⟨⟨x, v⟩, declared, done⟩ := Answer.bind_eq_ok_iff.mp applied
    cases done
    exact waits_iff_of_quiet (forest.waits_declare declared) nofun nofun
  | openScope r =>
    have opened := forest.waits_openScope (s := s) (q := q) r
    cases applied
    simp only [reduceCtorEq, false_and, not_false_eq_true, and_true, Operation.openScope.injEq,
      Except.ok.injEq, Reply.scope.injEq]
    exact opened.trans (or_congr_right (and_comm.trans (and_congr_right fun _ => eq_comm)))
  | openBlock r =>
    obtain ⟨⟨id, v⟩, opened, done⟩ := Answer.bind_eq_ok_iff.mp applied
    cases done
    exact waits_iff_of_quiet (forest.waits_openBlock proper opened) nofun nofun
  | define r x =>
    obtain ⟨result, defined, done⟩ := Answer.bind_eq_ok_iff.mp applied
    cases result with
    | error refusal =>
      cases done
      exact waits_iff_of_refused
    | ok v =>
      cases done
      exact waits_iff_of_quiet (consistent.waits_define defined) nofun nofun
  | defineBuiltins names =>
    obtain ⟨⟨result, v⟩, defined, done⟩ := Answer.bind_eq_ok_iff.mp applied
    cases done
    have same := waits_defineBuiltinsFrom (s := s) (q := q) ⟨consistent, forest⟩ defined
    exact waits_iff_of_quiet same nofun nofun
  | nest parent child =>
    obtain ⟨result, nested, done⟩ := Answer.bind_eq_ok_iff.mp applied
    cases result with
    | error refusal =>
      cases done
      exact waits_iff_of_refused
    | ok v =>
      cases done
      obtain ⟨_, _, _, _, _, _, rfl⟩ := nest_eq_ok_iff.mp nested
      rw [waits_nest proper.1]
      simp
  | setType x type =>
    obtain ⟨result, set, done⟩ := Answer.bind_eq_ok_iff.mp applied
    cases result with
    | error refusal =>
      cases done
      exact waits_iff_of_refused
    | ok v =>
      cases done
      obtain ⟨symbols, rfl⟩ := setType_symbols set
      exact waits_iff_of_quiet (waits_congr rfl) nofun nofun
  | setDefSite x site =>
    obtain ⟨v, set, done⟩ := Answer.bind_eq_ok_iff.mp applied
    obtain ⟨_, _, set⟩ := Answer.bind_eq_ok_iff.mp set
    cases done
    cases set
    exact waits_iff_of_quiet (waits_congr rfl) nofun nofun
  | setTypeIndex x index =>
    obtain ⟨v, set, done⟩ := Answer.bind_eq_ok_iff.mp applied
    cases done
    obtain ⟨types, rfl⟩ := setTypeIndex_types set
    exact waits_iff_of_quiet (waits_congr rfl) nofun nofun
  | numberType type index =>
    cases applied
    exact waits_iff_of_quiet (waits_congr rfl) nofun nofun
  | intern text =>
    cases applied
    exact waits_iff_of_quiet (waits_congr rfl) nofun nofun
  | requestType r =>
    cases applied
    exact waits_iff_of_quiet (waits_congr rfl) nofun nofun

end Table

/-! ### Over a run -/

namespace Run

open Table

variable {r : Run} {s q : ScopeId} {i n : Nat}

/-- The block that operation `i` opened in `s` is nested there by no later operation. -/
def LeavesOpen (r : Run) (i : Nat) (s q : ScopeId) : Prop :=
  r.Replies i (.openScope s) (.scope q) ∧ ∀ j, i < j → ¬ r.Replies j (.nest s q) .done

theorem replies_iff {op : Operation} {reply : Reply} {u : Table} {outcome : Outcome}
    (nth : r.operations[i]? = some op) (applied : (r.state i).apply op = .ok (outcome, u))
    (other : Operation) : r.Replies i other reply ↔ op = other ∧ outcome = .ok reply := by
  rw [Replies, nth, Option.some.injEq]
  refine and_congr_right ?_
  rintro rfl
  rw [applied, Except.map, Except.ok.injEq]

theorem waits_succ (r : Run) (i : Nat) : (r.state (i + 1)).Waits s q ↔
    (r.state i).Waits s q ∧ ¬ r.Replies i (.nest s q) .done ∨
      r.Replies i (.openScope s) (.scope q) := by
  cases nth : r.operations[i]? with
  | none =>
    rw [idle nth]
    simp [Replies, nth]
  | some op =>
    obtain ⟨proper, outcome, applied⟩ := applied nth
    rw [replies_iff nth applied, replies_iff nth applied]
    exact (r.reachable i).forest.waits_apply (r.consistent i) proper applied

/-- A block waits when it was opened before and was not nested since. -/
theorem waits_iff (r : Run) (n : Nat) : (r.state n).Waits s q ↔
    ∃ i, i < n ∧ r.Replies i (.openScope s) (.scope q) ∧
      ∀ j, i < j → j < n → ¬ r.Replies j (.nest s q) .done := by
  induction n with
  | zero =>
    constructor
    · rintro ⟨⟨d, read, free, inside⟩, unlisted⟩
      rw [state_zero] at read unlisted
      rcases scope_new read with ⟨_, rfl⟩ | ⟨rfl, rfl⟩
      · cases inside
      · cases inside
        have listed : ScopeId.global ∈ #[ScopeId.global] := by simp
        exact absurd listed (unlisted _ rfl)
    · rintro ⟨i, before, _⟩
      omega
  | succ n ih =>
    rw [r.waits_succ n, ih]
    constructor
    · rintro (⟨⟨i, before, opened, open'⟩, kept⟩ | opened)
      · refine ⟨i, by omega, opened, fun j after upto => ?_⟩
        rcases Nat.lt_succ_iff_lt_or_eq.mp upto with earlier | rfl
        · exact open' j after earlier
        · exact kept
      · exact ⟨n, by omega, opened, fun j after upto => by omega⟩
    · rintro ⟨i, before, opened, open'⟩
      rcases Nat.lt_succ_iff_lt_or_eq.mp before with earlier | rfl
      · exact .inl ⟨⟨i, earlier, opened, fun j after upto => open' j after (by omega)⟩,
          open' n earlier (by omega)⟩
      · exact .inr opened

theorem waits_final_iff (r : Run) : r.final.Waits s q ↔ ∃ i, r.LeavesOpen i s q := by
  have within : ∀ {i op reply}, r.Replies i op reply → i < r.operations.length :=
    fun replies => (List.getElem?_eq_some_iff.mp replies.1).1
  rw [final, r.waits_iff]
  constructor
  · rintro ⟨i, _, opened, open'⟩
    exact ⟨i, opened, fun j after nested => open' j after (within nested) nested⟩
  · rintro ⟨i, opened, open'⟩
    exact ⟨i, within opened, opened, fun j after _ => open' j after⟩

end Run

namespace Table

/-- In every reachable table each way outwards visits no scope twice and ends at the
predefined scope or at the body of an undefined symbol. A body and its owner tell each
other. A scope lists only what it encloses, each once; of what it encloses it omits just
those blocks that some operation opened and no later one nested. -/
theorem Reachable.enclosure (reachable : t.Reachable) :
    (∀ s, t.HasScope s → ∃ path root, t.enclosingPath s = .ok path ∧
      Walk t.enclosing? s path ∧ path.Nodup ∧ path.getLast? = some root ∧
      t.outermost s = .ok root ∧ (root = .predefined ∨
        ∃ x, t.body? x = .ok (some root) ∧ t.owningScope? x = .ok none)) ∧
    (∀ s, t.HasScope s → (t.enclosing? s = .ok none ↔
      s = .predefined ∨ ∃ x, t.body? x = .ok (some s) ∧ t.owningScope? x = .ok none)) ∧
    (∀ x b, t.body? x = .ok (some b) → t.scopeOwner? b = .ok (some x) ∧
      (∃ home, t.owningScope? x = .ok home ∧ t.enclosing? b = .ok home) ∧
      ∀ y, t.body? y = .ok (some b) → y = x) ∧
    (∀ s, t.HasScope s → ∃ l, t.nestedScopes s = .ok l ∧ l.Nodup ∧
      ∀ q ∈ l, t.enclosing? q = .ok (some s)) ∧
    (∃ r : Run, r.final = t) ∧
    ∀ r : Run, r.final = t → ∀ s l, t.nestedScopes s = .ok l →
      ∀ q, t.enclosing? q = .ok (some s) ∧ q ∉ l ↔ ∃ i, r.LeavesOpen i s q := by
  have consistent := reachable.consistent
  have forest := reachable.forest
  refine ⟨fun s given => ?_, fun s given => forest.enclosing?_eq_none_iff consistent given,
    fun x b has => ?_, fun s given => ?_, reachable.exists_run, ?_⟩
  · obtain ⟨path, walk⟩ := consistent.rooted given
    obtain ⟨root, last, ends⟩ := walk.next_getLast
    have known := hasScope_of_mem_walk walk (List.mem_of_getLast? last)
    exact ⟨path, root, enclosingPath_eq_ok_iff.mpr walk, walk, walk.nodup, last,
      outermost_of_walk walk last, (forest.enclosing?_eq_none_iff consistent known).mp ends⟩
  · obtain ⟨owner, home⟩ := consistent.body_links has
    refine ⟨owner, home, fun y also => ?_⟩
    rw [(consistent.body_links also).1, Except.ok.injEq, Option.some.injEq] at owner
    exact owner
  · obtain ⟨c, read⟩ := hasScope_iff.mp given
    have listed := consistent.nestedScopes_eq read
    exact ⟨_, listed, consistent.nodup_nestedScopes forest read, fun q member =>
      ((consistent.mem_nestedScopes_iff forest listed).mp member).1⟩
  · rintro r rfl s l listed q
    rw [← r.waits_final_iff, consistent.mem_nestedScopes_iff forest listed]
    constructor
    · rintro ⟨inside, other⟩
      exact Classical.byContradiction fun gone => other ⟨inside, gone⟩
    · intro waits
      obtain ⟨⟨d, read, _, inside⟩, _⟩ := id waits
      exact ⟨enclosing?_eq_ok_iff.mpr ⟨d, read, inside⟩, fun listed => listed.2 waits⟩

/-- A function that is not defined yet, with another in its body; in the body of that one
three blocks, of which the first is listed at once, the second later, and the third not. In
the end it is refused to put the function into the third block. -/
def detached : Run where
  config := {}
  operations := [
    .declare "f" (.function none), .declare "g" (.function none), .define ⟨2⟩ ⟨1⟩,
    .openBlock ⟨3⟩, .openScope ⟨3⟩, .openScope ⟨3⟩, .nest ⟨3⟩ ⟨5⟩, .define ⟨6⟩ ⟨0⟩]
  accepted := by decide +kernel

theorem detached_enclosure : detached.final.Reachable ∧
    (∃ path, detached.final.enclosingPath ⟨6⟩ = .ok path ∧ path.Nodup) ∧
    detached.final.enclosingPath ⟨6⟩ = .ok [⟨6⟩, ⟨3⟩, ⟨2⟩] ∧
    detached.final.enclosing? ⟨2⟩ = .ok none ∧
    (∃ home, detached.final.owningScope? ⟨1⟩ = .ok home ∧
      detached.final.enclosing? ⟨3⟩ = .ok home) ∧
    (∃ l, detached.final.nestedScopes ⟨3⟩ = .ok l ∧ l.Nodup) ∧
    detached.final.nestedScopes ⟨3⟩ = .ok [⟨4⟩, ⟨5⟩] ∧
    ∃ i, detached.LeavesOpen i ⟨3⟩ ⟨6⟩ := by
  have reachable := detached.reachable detached.operations.length
  obtain ⟨ways, roots, owners, lists, _, missing⟩ := Reachable.enclosure reachable
  obtain ⟨path, _, known, _, distinct, _⟩ := ways ⟨6⟩ (by decide +kernel)
  obtain ⟨l, listed, once, _⟩ := lists ⟨3⟩ (by decide +kernel)
  refine ⟨reachable, ⟨path, known, distinct⟩, by decide +kernel,
    (roots ⟨2⟩ (by decide +kernel)).mpr (.inr ⟨⟨0⟩, by decide +kernel, by decide +kernel⟩),
    (owners ⟨1⟩ ⟨3⟩ (by decide +kernel)).2.1, ⟨l, listed, once⟩, by decide +kernel, ?_⟩
  exact (missing detached rfl ⟨3⟩ [⟨4⟩, ⟨5⟩] (by decide +kernel) ⟨6⟩).mp (by decide +kernel)

end Table

end Scoping
