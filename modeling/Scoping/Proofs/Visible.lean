import Scoping.Proofs.View

/-!
# What is visible

The members visible in a struct or class are the listing along its chain, and a member
that is looked up by name is the nearest one of that name on the chain.
-/

namespace Scoping

namespace Table

variable {t : Table} {x y m C D P : SymbolId} {k : Kind} {l listed : List SymbolId} {n : Name}

theorem symbolsEqual_eq (here : t.HasSymbol x) (there : t.HasSymbol y) :
    t.symbolsEqual x y = .ok (decide (t.nameAt x = t.nameAt y)) := by
  obtain ⟨a, read⟩ := hasSymbol_iff.mp here
  obtain ⟨b, read'⟩ := hasSymbol_iff.mp there
  rw [nameAt_of_symbol read, nameAt_of_symbol read', symbolsEqual, name, name, read, read']
  simp only [Answer.ok_bind, Answer.pure_eq_ok, Option.some.injEq]
  rfl

theorem override_eq (given : ∀ z ∈ listed, t.HasSymbol z) (member : t.HasSymbol m) :
    t.override listed m = .ok (put t.nameAt listed m) := by
  induction listed with
  | nil => rfl
  | cons first rest ih =>
    have further := ih fun z inside => given z (List.mem_cons_of_mem first inside)
    rw [override, symbolsEqual_eq (given first List.mem_cons_self) member, put]
    by_cases same : t.nameAt first = t.nameAt m
    · simp [same]
    · simp [same, further]

theorem kind_eq_ok (given : t.HasSymbol x) :
    ∃ kind, t.kind x = .ok kind ∧ t.kindAt x = some kind := by
  obtain ⟨a, read⟩ := hasSymbol_iff.mp given
  exact ⟨a.kind, kind_of_symbol read, kindAt_of_symbol read⟩

theorem filterM_kind (given : ∀ m ∈ listed, t.HasSymbol m) (k : Kind) :
    listed.filterM (fun m => return (← t.kind m) = k) =
      .ok (listed.filter fun m => t.kindAt m = some k) := by
  refine Answer.filterM_eq_ok fun m member => ?_
  obtain ⟨kind, read, known⟩ := kind_eq_ok (given m member)
  rw [read, known]
  simp only [Answer.ok_bind, Answer.pure_eq_ok, Option.some.injEq]

theorem Consistent.definedMembers (consistent : t.Consistent) (aggregate : t.IsAggregate D)
    (k : Kind) : t.definedMembers k D = .ok (t.own k D) := by
  obtain ⟨a, s, c, symbol, body, scope, _, listed⟩ := consistent.contents aggregate
  have members : t.symbolsOf s = .ok (t.contents D) := by
    rw [symbolsOf, scope, listed]
    rfl
  rw [Table.definedMembers, body?_of_symbol symbol, body]
  simp only [Answer.ok_bind, members]
  exact filterM_kind (fun m member => consistent.hasSymbol_of_mem member) k

/-- What is defined in a symbol's body is a member of no other struct or class. -/
theorem Consistent.mem_definedMembers (consistent : t.Consistent)
    (defined : t.definedMembers k x = .ok listed) (member : m ∈ listed) (here : m ∈ t.contents D) :
    x = D := by
  obtain ⟨body?, read, defined⟩ := Answer.bind_eq_ok_iff.mp defined
  cases body? with
  | none =>
    cases defined
    simp at member
  | some s =>
    obtain ⟨_, members, defined⟩ := Answer.bind_eq_ok_iff.mp defined
    obtain ⟨c, scope, shape⟩ := Answer.bind_eq_ok_iff.mp members
    cases shape
    have given : ∀ m ∈ c.members.toList, t.HasSymbol m := by
      intro m inside
      obtain ⟨a, symbol, _⟩ := consistent.member scope (Array.mem_toList_iff.mp inside)
      exact hasSymbol_iff.mpr ⟨a, symbol⟩
    rw [filterM_kind given, Except.ok.injEq] at defined
    rw [← defined] at member
    obtain ⟨a, symbol, home, _⟩ := consistent.member scope
      (Array.mem_toList_iff.mp (List.mem_of_mem_filter member))
    obtain ⟨a', s', c', symbol', home', scope', owned', _⟩ := consistent.member_contents here
    cases Except.ok.inj (symbol.symm.trans symbol')
    cases home.symm.trans home'
    obtain ⟨b, owner, body⟩ := body?_eq_ok_iff.mp read
    obtain ⟨c'', scope'', owned'', _⟩ := consistent.body owner body
    cases Except.ok.inj (scope''.symm.trans scope')
    exact Option.some.inj (owned''.symm.trans owned')

/-- A superclass is a class. -/
theorem Consistent.superclass_eq_some (consistent : t.Consistent)
    (above : t.superclass x = .ok (some y)) : ∃ a, t.symbol y = .ok a ∧ a.kind = .classType := by
  have given := hasSymbol_of_superclassWithin above
  rw [consistent.superclass_eq given, superclassVia] at above
  obtain ⟨a, _, above⟩ := Answer.bind_eq_ok_iff.mp above
  split at above
  · obtain ⟨found, _, above⟩ := Answer.bind_eq_ok_iff.mp above
    cases found with
    | none => cases above
    | some z =>
      obtain ⟨kind, read, above⟩ := Answer.bind_eq_ok_iff.mp above
      split at above
      · rename_i isClass
        cases above
        obtain ⟨b, symbol, shape⟩ := Answer.bind_eq_ok_iff.mp read
        cases shape
        exact ⟨b, symbol, isClass⟩
      · cases above
  · cases above

theorem Consistent.isAggregate_superclass (consistent : t.Consistent)
    (above : t.superclass x = .ok (some y)) : t.IsAggregate y := by
  obtain ⟨a, symbol, kind⟩ := consistent.superclass_eq_some above
  exact ⟨a, symbol, by rw [kind]; rfl⟩

/-- What is no class has no superclass. -/
theorem Consistent.superclass_of_not_aggregate (consistent : t.Consistent)
    (given : t.HasSymbol x) (other : ¬ t.IsAggregate x) : t.superclass x = .ok none := by
  obtain ⟨a, read⟩ := hasSymbol_iff.mp given
  have unnamed : a.form.superclassName? = none := by
    cases form : a.form with
    | classType layout superclass =>
      refine absurd ⟨a, read, ?_⟩ other
      rw [Symbol.kind, form]
      rfl
    | _ => rfl
  rw [consistent.superclass_eq given, superclassVia, read]
  simp [unnamed]

theorem Consistent.isAggregate_of_superclass (consistent : t.Consistent)
    (above : t.superclass x = .ok (some y)) : t.IsAggregate x := by
  by_contra other
  rw [consistent.superclass_of_not_aggregate (hasSymbol_of_superclassWithin above) other] at above
  cases above

theorem Consistent.settles_aggregates (consistent : t.Consistent) :
    t.Settles t.superclass t.IsAggregate := by
  have given : ∀ {x}, t.IsAggregate x → t.HasSymbol x := by
    rintro x ⟨a, read, _⟩
    exact hasSymbol_iff.mpr ⟨a, read⟩
  refine ⟨given, fun aggregate => ?_⟩
  obtain ⟨r, known, _⟩ := consistent.settles.answers (given aggregate)
  refine ⟨r, known, ?_⟩
  rintro above rfl
  exact consistent.isAggregate_superclass known

/-- The chain of a struct or class consists of structs and classes. -/
theorem Consistent.isAggregate_of_mem_chain (consistent : t.Consistent)
    (aggregate : t.IsAggregate C) (chain : t.chain C = .ok l) : ∀ D ∈ l, t.IsAggregate D := by
  obtain ⟨l', found, inside⟩ := consistent.settles_aggregates.chainVia aggregate
  cases Except.ok.inj (chain.symm.trans found)
  exact inside

theorem Consistent.hasSymbol_of_mem_own (consistent : t.Consistent) (member : m ∈ t.own k D) :
    t.HasSymbol m := consistent.hasSymbol_of_mem (mem_own.mp member).1

theorem Consistent.hasSymbol_of_mem_layered (consistent : t.Consistent)
    (member : m ∈ t.layered k l) : t.HasSymbol m := by
  obtain ⟨D, _, inside⟩ := exists_own_of_mem_layered member
  exact consistent.hasSymbol_of_mem_own inside

theorem layered_eq_foldl (t : Table) (k : Kind) (l : List SymbolId) :
    l.reverse.foldl (fun listed D => overlay t.nameAt listed (t.own k D)) [] =
      t.layered k l := by
  induction l with
  | nil => rfl
  | cons D above ih =>
    rw [List.reverse_cons, List.foldl_append, ih]
    rfl

/-- The visible members of a kind are the listing along the chain. -/
theorem Consistent.visibleMembers (consistent : t.Consistent) (given : t.HasSymbol C)
    (chain : t.chain C = .ok l) (k : Kind) :
    t.visibleMembers k C = .ok (t.layered k l) := by
  obtain ⟨a, read⟩ := hasSymbol_iff.mp given
  rw [Table.visibleMembers, kind_of_symbol read]
  by_cases aggregate : a.kind.isAggregate = true
  · have members := consistent.isAggregate_of_mem_chain ⟨a, read, aggregate⟩ chain
    have step : ∀ (listed : List SymbolId) (D : SymbolId), (∀ z ∈ listed, t.HasSymbol z) →
        D ∈ l.reverse → (do (← t.definedMembers k D).foldlM t.override listed : Answer _) =
          .ok (overlay t.nameAt listed (t.own k D)) ∧
          ∀ z ∈ overlay t.nameAt listed (t.own k D), t.HasSymbol z := by
      intro listed D known inside
      rw [consistent.definedMembers (members D (List.mem_reverse.mp inside)) k]
      refine Answer.foldlM_eq_ok (P := fun listed => ∀ z ∈ listed, t.HasSymbol z) ?_ known
      intro listed m known member
      have given := consistent.hasSymbol_of_mem_own member
      refine ⟨override_eq known given, ?_⟩
      intro z inside
      rcases mem_of_mem_put inside with rfl | inside
      · exact given
      · exact known z inside
    have folded := (Answer.foldlM_eq_ok step (by simp : ∀ z ∈ [], t.HasSymbol z)).1
    rw [layered_eq_foldl] at folded
    simp only [Answer.ok_bind, aggregate, if_true, chain]
    exact folded
  · have other : ¬ t.IsAggregate C := by
      rintro ⟨b, read', kind⟩
      cases Except.ok.inj (read.symm.trans read')
      exact aggregate kind
    have alone : t.Lineage C [C] :=
      lineage_iff.mpr (.stop (consistent.superclass_of_not_aggregate given other))
    cases Except.ok.inj (chain.symm.trans alone.1)
    simp [aggregate, layered, own_of_not_aggregate other]

theorem mapM_slot? (given : ∀ m ∈ l, t.HasSymbol m) : l.mapM t.slot? = .ok (l.map t.slotAt) :=
  Answer.mapM_eq_ok fun m member => slot?_eq (given m member)

theorem mapM_name (given : ∀ m ∈ l, t.HasSymbol m) :
    l.mapM t.name = .ok ((l.map t.nameAt).map (Option.getD · .empty)) := by
  rw [List.map_map]
  refine Answer.mapM_eq_ok fun m member => ?_
  obtain ⟨a, symbol⟩ := hasSymbol_iff.mp (given m member)
  rw [name_eq_ok_iff, Function.comp_apply, nameAt_of_symbol symbol]
  rfl

theorem Consistent.layered_of_visibleMembers (consistent : t.Consistent)
    (shown : t.visibleMembers k C = .ok listed) :
    ∃ l, t.chain C = .ok l ∧ listed = t.layered k l := by
  obtain ⟨kind, read, _⟩ := Answer.bind_eq_ok_iff.mp shown
  obtain ⟨a, symbol, _⟩ := Answer.bind_eq_ok_iff.mp read
  have given : t.HasSymbol C := hasSymbol_iff.mpr ⟨a, symbol⟩
  obtain ⟨l, chain, _⟩ := consistent.settles.chainVia given
  have known := consistent.visibleMembers given chain k
  exact ⟨l, chain, Except.ok.inj (shown.symm.trans known)⟩

/-- The first new slot is behind all those that the superclass shows. -/
theorem Consistent.methodBase (consistent : t.Consistent) (above : t.superclass C = .ok (some P))
    (shown : t.methods P = .ok listed) : t.methodBase C =
      .ok (((listed.map t.slotAt).filterMap id).max?.elim 0 (· + 1)) := by
  obtain ⟨l, _, rfl⟩ := consistent.layered_of_visibleMembers shown
  have slots := mapM_slot? fun m => consistent.hasSymbol_of_mem_layered (k := .method) (l := l)
  rw [Table.methodBase, above]
  simp only [Answer.ok_bind, shown, slots, Answer.pure_eq_ok]

theorem Consistent.lt_methodBase (consistent : t.Consistent)
    (above : t.superclass C = .ok (some P)) (shown : t.methods P = .ok listed) (member : m ∈ listed)
    {v b : Nat} (slotted : t.slotAt m = some v) (base : t.methodBase C = .ok b) : v < b := by
  rw [consistent.methodBase above shown, Except.ok.injEq] at base
  have inside : v ∈ (listed.map t.slotAt).filterMap id := by
    rw [List.mem_filterMap]
    exact ⟨some v, slotted ▸ List.mem_map_of_mem member, rfl⟩
  cases largest : ((listed.map t.slotAt).filterMap id).max? with
  | none =>
    rw [List.max?_eq_none_iff.mp largest] at inside
    cases inside
  | some w =>
    rw [largest, Option.elim_some] at base
    have le := (List.max?_eq_some_iff.mp largest).2 v inside
    omega

/-- The slots of the listed members are pairwise different. -/
def DistinctSlots (t : Table) (l : List SymbolId) : Prop :=
  l.Pairwise fun x y => t.slot? x ≠ t.slot? y

instance decidableDistinctSlots (t : Table) (l : List SymbolId) : Decidable (t.DistinctSlots l) :=
  inferInstanceAs (Decidable (l.Pairwise _))

theorem nodup_layered (k : Kind) (l : List SymbolId) : (t.layered k l).Nodup :=
  List.Nodup.of_map t.nameAt (names_layered k l)

theorem Consistent.distinctSlots_iff (consistent : t.Consistent) :
    t.DistinctSlots (t.layered k l) ↔
      ∀ x ∈ t.layered k l, ∀ y ∈ t.layered k l, t.slotAt x = t.slotAt y → x = y := by
  rw [← List.nodup_map_iff_inj_on (nodup_layered k l), List.Nodup, List.pairwise_map]
  refine List.Pairwise.iff_of_mem fun {x y} here there => ?_
  rw [slot?_eq (consistent.hasSymbol_of_mem_layered here),
    slot?_eq (consistent.hasSymbol_of_mem_layered there), ne_eq, ne_eq, Except.ok.injEq]

/-- A list that extends another has an entry of each of its names, at the same place. -/
theorem getElem?_layered_cons (t : Table) (k : Kind) (D : SymbolId) (rest : List SymbolId) {i : Nat}
    (nth : (t.layered k rest)[i]? = some m) :
    ∃ y, (t.layered k (D :: rest))[i]? = some y ∧ t.nameAt y = t.nameAt m := by
  obtain ⟨more, names⟩ := keys_overlay t.nameAt (t.layered k rest) (t.own k D)
  have short : i < ((t.layered k rest).map t.nameAt).length := by
    rw [List.length_map]
    exact (List.getElem?_eq_some_iff.mp nth).1
  have entry := congrArg (fun keys => keys[i]?) names
  simp only [List.getElem?_append_left short, List.getElem?_map, nth, Option.map_some] at entry
  obtain ⟨y, listed, same⟩ := Option.map_eq_some_iff.mp entry
  exact ⟨y, listed, same⟩

/-- The list of a class starts with the names of the list of a class above. -/
theorem names_layered_append (t : Table) (k : Kind) (before after : List SymbolId) :
    ∃ more, (t.layered k (before ++ after)).map t.nameAt =
      (t.layered k after).map t.nameAt ++ more := by
  induction before with
  | nil => exact ⟨[], by simp⟩
  | cons D before ih =>
    obtain ⟨more, names⟩ := ih
    obtain ⟨more', names'⟩ := keys_overlay t.nameAt (t.layered k (before ++ after)) (t.own k D)
    exact ⟨more ++ more', by rw [List.cons_append, layered, names', names, List.append_assoc]⟩

theorem take_names_layered (t : Table) (k : Kind) (before after : List SymbolId) :
    ((t.layered k (before ++ after)).take (t.layered k after).length).map t.nameAt =
      (t.layered k after).map t.nameAt := by
  obtain ⟨more, names⟩ := names_layered_append t k before after
  rw [List.map_take, names, ← List.length_map t.nameAt, List.take_left]

theorem length_layered_le (t : Table) (k : Kind) (before after : List SymbolId) :
    (t.layered k after).length ≤ (t.layered k (before ++ after)).length := by
  obtain ⟨more, names⟩ := names_layered_append t k before after
  have lengths := congrArg List.length names
  simp only [List.length_map, List.length_append] at lengths
  omega

/-! ### The nearest member of a name -/

/-- The member of that name in the body of a struct or class. -/
def memberAt (t : Table) (n : Name) (D : SymbolId) : Option SymbolId :=
  (t.contents D).find? fun m => t.nameAt m = some n

theorem memberAt_eq_some (found : t.memberAt n D = some m) :
    m ∈ t.contents D ∧ t.nameAt m = some n := by
  refine ⟨List.mem_of_find?_eq_some found, ?_⟩
  simpa using List.find?_some found

theorem memberAt_eq_none_iff :
    t.memberAt n D = none ↔ ∀ m ∈ t.contents D, t.nameAt m ≠ some n := by
  rw [memberAt, List.find?_eq_none]
  simp

theorem Consistent.foundIn_eq (consistent : t.Consistent) (aggregate : t.IsAggregate D) :
    t.foundIn n D = .ok (t.memberAt n D) := by
  obtain ⟨a, s, c, symbol, body, scope, owned, listed⟩ := consistent.contents aggregate
  have same : c.find? n = t.memberAt n D := by
    cases found : t.memberAt n D with
    | some m =>
      obtain ⟨member, named⟩ := memberAt_eq_some found
      obtain ⟨b, s', c', symbol', _, scope', owned', found'⟩ := consistent.member_contents member
      obtain ⟨_, rfl⟩ := consistent.scope_unique scope owned scope' owned'
      rw [nameAt_of_symbol symbol', Option.some.injEq] at named
      rwa [named] at found'
    | none =>
      cases found' : c.find? n with
      | none => rfl
      | some m =>
        obtain ⟨member, b, symbol', named⟩ := consistent.found scope found'
        have inside : m ∈ t.contents D := by
          rw [listed]
          exact Array.mem_toList_iff.mpr member
        refine absurd ?_ (memberAt_eq_none_iff.mp found m inside)
        rw [nameAt_of_symbol symbol', named]
  rw [Table.foundIn, body?_of_symbol symbol, body]
  simp only [Answer.ok_bind, scope, Answer.pure_eq_ok, same]

/-- What is found by a name is the nearest member of that name. -/
theorem Consistent.memberNamed (consistent : t.Consistent) (aggregate : t.IsAggregate C)
    (chain : t.chain C = .ok l) (n : Name) :
    t.memberNamed C n = .ok (l.findSome? (t.memberAt n)) := by
  have members := consistent.isAggregate_of_mem_chain aggregate chain
  have known : ∀ D ∈ l, t.foundIn n D = .ok (t.memberAt n D) :=
    fun D inside => consistent.foundIn_eq (members D inside)
  rw [Table.memberNamed, memberVia_eq, ← Table.chain, chain]
  exact Answer.findSomeM?_eq_ok known

/-- The method of a name is the nearest member of that name, if that is a method. -/
theorem Consistent.methodNamed (consistent : t.Consistent) (aggregate : t.IsAggregate C)
    (chain : t.chain C = .ok l) (n : Name) : t.methodNamed C n =
      .ok ((l.findSome? (t.memberAt n)).filter fun m => t.kindAt m = some .method) := by
  rw [Table.methodNamed, consistent.memberNamed aggregate chain, Answer.ok_bind]
  cases nearest : l.findSome? (t.memberAt n) with
  | none => rfl
  | some m =>
    obtain ⟨E, _, found⟩ := List.exists_of_findSome?_eq_some nearest
    obtain ⟨kind, read, known⟩ := kind_eq_ok
      (consistent.hasSymbol_of_mem (memberAt_eq_some found).1)
    rw [kindOnly, Option.filter_some, read, known]
    by_cases method : kind = .method
    · simp [method]
    · simp [method]

theorem Consistent.mem_own_of_methodNamed (consistent : t.Consistent)
    (aggregate : t.IsAggregate C) (found : t.methodNamed C n = .ok (some m)) :
    ∃ D, m ∈ t.own .method D ∧ t.nameAt m = some n := by
  obtain ⟨l, chain, _⟩ := consistent.settles.chainVia aggregate.hasSymbol
  rw [consistent.methodNamed aggregate chain, Except.ok.injEq, Option.filter_eq_some_iff] at found
  obtain ⟨D, _, member⟩ := List.exists_of_findSome?_eq_some found.1
  obtain ⟨inside, named⟩ := memberAt_eq_some member
  exact ⟨D, mem_own.mpr ⟨inside, by simpa using found.2⟩, named⟩

/-- The nearest member of a name is listed among the visible members of its kind. -/
theorem Consistent.mem_layered_of_nearest (consistent : t.Consistent)
    (nearest : l.findSome? (t.memberAt n) = some m) (kind : t.kindAt m = some k) :
    m ∈ t.layered k l := by
  induction l with
  | nil => simp at nearest
  | cons D above ih =>
    rw [List.findSome?_cons] at nearest
    rw [layered, mem_overlay_iff (names_layered k above) (consistent.names_own k D)]
    cases here : t.memberAt n D with
    | some m' =>
      rw [here] at nearest
      cases nearest
      exact .inl (mem_own.mpr ⟨(memberAt_eq_some here).1, kind⟩)
    | none =>
      rw [here] at nearest
      obtain ⟨E, _, found⟩ := List.exists_of_findSome?_eq_some nearest
      refine .inr ⟨ih nearest, ?_⟩
      rw [(memberAt_eq_some found).2]
      intro listed
      obtain ⟨m', inside, named⟩ := List.mem_map.mp listed
      exact memberAt_eq_none_iff.mp here m' (mem_own.mp inside).1 named

theorem layered_congr {u : Table} (names : ∀ D ∈ l, ∀ m ∈ t.own k D, u.nameAt m = t.nameAt m)
    (members : ∀ D ∈ l, u.own k D = t.own k D) : u.layered k l = t.layered k l := by
  induction l with
  | nil => rfl
  | cons D above ih =>
    have further := ih (fun E inside => names E (List.mem_cons_of_mem D inside))
      fun E inside => members E (List.mem_cons_of_mem D inside)
    rw [layered, layered, further, members D List.mem_cons_self]
    refine overlay_congr (fun m listed => ?_) (names D List.mem_cons_self)
    obtain ⟨E, inside, member⟩ := exists_own_of_mem_layered listed
    exact names E (List.mem_cons_of_mem D inside) m member

end Table

end Scoping
