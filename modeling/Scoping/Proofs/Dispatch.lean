import Scoping.Proofs.Membership
import Scoping.Proofs.Timeline

/-!
# Dispatch tables

When classes get their methods superclass first, the visible methods of a class, read as
a list, have the slots 0, 1, 2 and so on. The list of a class starts with that of its
superclass, so a method is called through the same slot whichever class it is.

The counter of a class is set when the class gets its first new method, and an override
does not move it. What ties it to the list is that it always is the length of the list,
and that as long as it is not set the class has added no name.
-/

namespace Scoping

namespace Table

variable {t u w : Table} {k : Kind} {C D P m x : SymbolId} {l rest : List SymbolId} {n : Name}
  {slot : Nat}

/-- The slots of the listed members are 0, 1, 2 and so on. -/
def InOrder (t : Table) (l : List SymbolId) : Prop :=
  l.map t.slotAt = (List.range l.length).map some

theorem InOrder.slotAt_getElem {i : Nat} (order : t.InOrder l) (nth : l[i]? = some m) :
    t.slotAt m = some i := by
  have entry := congrArg (fun slots => slots[i]?) order
  have short : i < l.length := (List.getElem?_eq_some_iff.mp nth).1
  simp only [List.getElem?_map, nth, Option.map_some, List.getElem?_range short] at entry
  exact Option.some.inj entry

theorem InOrder.slotAt_eq_some (order : t.InOrder l) (member : m ∈ l) :
    ∃ i, i < l.length ∧ l[i]? = some m ∧ t.slotAt m = some i := by
  obtain ⟨i, nth⟩ := List.mem_iff_getElem?.mp member
  exact ⟨i, (List.getElem?_eq_some_iff.mp nth).1, nth, order.slotAt_getElem nth⟩

theorem InOrder.take {count : Nat} (order : t.InOrder l) (short : count ≤ l.length) :
    (l.take count).map t.slotAt = (List.range count).map some := by
  rw [List.map_take, order, ← List.map_take, List.take_range, Nat.min_eq_left short]

theorem max_range (count : Nat) : (List.range count).max?.elim 0 (· + 1) = count := by
  cases count with
  | zero => rfl
  | succ count =>
    have largest : (List.range (count + 1)).max? = some count := by
      rw [List.max?_eq_some_iff]
      refine ⟨List.mem_range.mpr (Nat.lt_succ_self count), fun i inside => ?_⟩
      exact Nat.le_of_lt_succ (List.mem_range.mp inside)
    rw [largest]
    rfl

/-! ### What the slot of a method is worked out from -/

/-- A method takes over the slot of the nearest member of its name, if it is a method. -/
theorem Consistent.overriddenSlot?_of_chain (consistent : t.Consistent)
    (above : t.superclass D = .ok (some P)) (chain : t.chain P = .ok l) (n : Name) :
    t.overriddenSlot? D n =
      .ok (((l.findSome? (t.memberAt n)).filter fun m => t.kindAt m = some .method).bind
        t.slotAt) := by
  rw [Table.overriddenSlot?, above]
  simp only [Answer.ok_bind]
  rw [consistent.methodNamed (consistent.isAggregate_superclass above) chain, Answer.ok_bind]
  cases found : (l.findSome? (t.memberAt n)).filter fun m => t.kindAt m = some .method with
  | none => rfl
  | some m =>
    have nearest := (Option.filter_eq_some_iff.mp found).1
    obtain ⟨E, _, member⟩ := List.exists_of_findSome?_eq_some nearest
    exact slot?_eq (consistent.hasSymbol_of_mem (memberAt_eq_some member).1)

theorem Consistent.overriddenSlot? (consistent : t.Consistent)
    (lineage : t.Lineage D (D :: rest)) (n : Name) : t.overriddenSlot? D n =
      .ok (((rest.findSome? (t.memberAt n)).filter fun m => t.kindAt m = some .method).bind
        t.slotAt) := by
  rcases lineage.superclass with ⟨rfl, none⟩ | ⟨P, above, further⟩
  · rw [Table.overriddenSlot?, none]
    rfl
  · exact consistent.overriddenSlot?_of_chain above further.1 n

/-- When the list of the superclass is in order, the first new slot is its length. -/
theorem Consistent.methodBase_of_inOrder (consistent : t.Consistent)
    (lineage : t.Lineage D (D :: rest)) (order : t.InOrder (t.layered .method rest)) :
    t.methodBase D = .ok (t.layered .method rest).length := by
  rcases lineage.superclass with ⟨rfl, none⟩ | ⟨P, above, further⟩
  · rw [Table.methodBase, none]
    rfl
  · have given := hasSymbol_of_mem_walk further.walk further.walk.mem_start
    rw [consistent.methodBase above (consistent.visibleMembers given further.1 .method), order,
      List.filterMap_map]
    have plain : (List.range (t.layered .method rest).length).filterMap (id ∘ some) =
        List.range (t.layered .method rest).length := List.filterMap_some
    rw [plain, max_range]

/-- When no slot is taken over, no method of the name is listed for the superclass. -/
theorem Consistent.unnamed_of_overriddenSlot? (consistent : t.Consistent)
    (lineage : t.Lineage D (D :: rest)) (order : t.InOrder (t.layered .method rest))
    (agree : ∀ R ∈ rest, ∀ q ∈ t.contents R, t.nameAt q = some n → t.kindAt q = some .method)
    (free : t.overriddenSlot? D n = .ok none) :
    some n ∉ (t.layered .method rest).map t.nameAt := by
  intro listed
  obtain ⟨q, inside, named⟩ := List.mem_map.mp listed
  obtain ⟨R, member, here⟩ := exists_own_of_mem_layered inside
  cases nearest : rest.findSome? (t.memberAt n) with
  | none =>
    have missing := List.findSome?_eq_none_iff.mp nearest R member
    exact memberAt_eq_none_iff.mp missing q (mem_own.mp here).1 named
  | some m =>
    obtain ⟨E, inside', found⟩ := List.exists_of_findSome?_eq_some nearest
    obtain ⟨member', named'⟩ := memberAt_eq_some found
    have kind := agree E inside' m member' named'
    have listed' := consistent.mem_layered_of_nearest nearest kind
    obtain ⟨i, _, _, slotted⟩ := order.slotAt_eq_some listed'
    rw [consistent.overriddenSlot? lineage, nearest, Option.filter_some] at free
    simp [kind, slotted] at free

/-- A slot that is taken over is that of a method of the name, listed for the superclass. -/
theorem Consistent.overridden (consistent : t.Consistent) (lineage : t.Lineage D (D :: rest))
    (taken : t.overriddenSlot? D n = .ok (some slot)) :
    ∃ m ∈ t.layered .method rest, t.nameAt m = some n ∧ t.slotAt m = some slot := by
  rw [consistent.overriddenSlot? lineage, Except.ok.injEq] at taken
  obtain ⟨m, found, slotted⟩ := Option.bind_eq_some_iff.mp taken
  obtain ⟨nearest, method⟩ := Option.filter_eq_some_iff.mp found
  have kind : t.kindAt m = some .method := by simpa using method
  obtain ⟨E, _, here⟩ := List.exists_of_findSome?_eq_some nearest
  exact ⟨m, consistent.mem_layered_of_nearest nearest kind, (memberAt_eq_some here).2, slotted⟩

/-! ### One more method -/

/-- The list of a class is in order, and the counter is its length once it is set. -/
structure Tabled (t : Table) (D : SymbolId) (rest : List SymbolId) : Prop where
  order : t.InOrder (t.layered .method (D :: rest))
  counted : ∀ {slot}, t.nextAt .method D = some slot →
    slot = (t.layered .method (D :: rest)).length
  uncounted : t.nextAt .method D = none →
    (t.layered .method (D :: rest)).length = (t.layered .method rest).length

theorem inOrder_between (joins : Joins t w u k D x n slot) {j : Kind} (above : D ∉ rest)
    (order : t.InOrder (t.layered j rest)) : w.InOrder (w.layered j rest) := by
  rw [InOrder, joins.layered_between above]
  exact (List.map_congr_left fun m _ => joins.slotBefore m).trans order

namespace Tabled

/-- Before a class has methods of its own, its list is that of the superclass. -/
theorem of_own_nil (order : t.InOrder (t.layered .method rest)) (none : t.own .method D = [])
    (unset : t.nextAt .method D = Option.none) : t.Tabled D rest := by
  have same : t.layered .method (D :: rest) = t.layered .method rest := by
    rw [layered, none, overlay_nil]
  refine ⟨by rwa [same], fun {slot} set => ?_, fun _ => by rw [same]⟩
  rw [unset] at set
  cases set

/-- An override comes into the place of what it overrides, and with its slot. -/
theorem overriding (tabled : t.Tabled D rest) (joins : Joins t w u .method D x n slot)
    (lineage : w.Lineage D (D :: rest)) (order : t.InOrder (t.layered .method rest))
    (taken : w.overriddenSlot? D n = .ok (some slot))
    (next : ∀ j E, u.nextAt j E = t.nextAt j E) : u.Tabled D rest := by
  have above : D ∉ rest := (List.nodup_cons.mp lineage.walk.nodup).1
  -- the method that is overridden is listed for the superclass, in the place of its slot
  obtain ⟨m, listed, named, slotted⟩ := joins.consistent.overridden lineage taken
  rw [joins.layered_between above] at listed
  rw [joins.names_between] at named
  rw [joins.slotBefore] at slotted
  obtain ⟨i, _, nth, slotted'⟩ := order.slotAt_eq_some listed
  have place : slot = i := Option.some.inj (slotted.symm.trans slotted')
  subst place
  -- the list of the class has an entry of the same name in the same place
  obtain ⟨y, nth', named'⟩ := getElem?_layered_cons t .method D rest nth
  have old := tabled.order.slotAt_getElem nth'
  have inside := List.mem_of_getElem? nth'
  have names : t.nameAt y = t.nameAt x := by rw [named', named, joins.name]
  have unmoved : u.slotAt y = u.slotAt x := by
    obtain ⟨E, _, member⟩ := exists_own_of_mem_layered inside
    rw [joins.slot_of_mem member, old, joins.slots, if_pos rfl]
  have slots : (u.layered .method (D :: rest)).map u.slotAt =
      (t.layered .method (D :: rest)).map t.slotAt := by
    rw [joins.layered_here above, map_put_of_mem (names_layered _ _) inside names unmoved,
      joins.slots_layered]
  have length : (u.layered .method (D :: rest)).length =
      (t.layered .method (D :: rest)).length := by
    simpa using congrArg List.length slots
  constructor
  case order =>
    rw [InOrder, slots, length]
    exact tabled.order
  case counted =>
    intro slot set
    rw [next] at set
    rw [length]
    exact tabled.counted set
  case uncounted =>
    intro unset
    rw [next] at unset
    rw [length, layered_of_undisturbed (joins.undisturbed_above above)]
    exact tabled.uncounted unset

/-- The next new slot is the length of the list. -/
theorem nextSlot (tabled : t.Tabled D rest) (joins : Joins t w u .method D x n slot)
    (lineage : w.Lineage D (D :: rest)) (order : t.InOrder (t.layered .method rest))
    (due : w.nextSlot .method D = .ok slot) :
    slot = (t.layered .method (D :: rest)).length := by
  have above : D ∉ rest := (List.nodup_cons.mp lineage.walk.nodup).1
  have given : w.HasSymbol D := hasSymbol_of_mem_walk lineage.walk lineage.walk.mem_start
  rw [nextSlot_eq (.inr rfl) given, joins.nextBefore] at due
  cases set : t.nextAt .method D with
  | some v =>
    rw [set] at due
    rw [← Except.ok.inj due]
    exact tabled.counted set
  | none =>
    rw [set] at due
    have base := joins.consistent.methodBase_of_inOrder lineage (inOrder_between joins above order)
    rw [tabled.uncounted set, ← joins.layered_between above]
    exact Except.ok.inj (due.symm.trans base)

/-- A method of a new name comes to the end, with the slot that the counter gives. -/
theorem extending (tabled : t.Tabled D rest) (joins : Joins t w u .method D x n slot)
    (lineage : w.Lineage D (D :: rest)) (order : t.InOrder (t.layered .method rest))
    (agree : ∀ R ∈ rest, ∀ q ∈ t.contents R, t.nameAt q = some n → t.kindAt q = some .method)
    (free : w.overriddenSlot? D n = .ok none) (due : w.nextSlot .method D = .ok slot)
    (next : ∀ j E, u.nextAt j E = if j = .method ∧ E = D then some (slot + 1) else t.nextAt j E) :
    u.Tabled D rest := by
  have above : D ∉ rest := (List.nodup_cons.mp lineage.walk.nodup).1
  have length := tabled.nextSlot joins lineage order due
  have names : w.nameAt = t.nameAt := funext joins.names_between
  have unnamed : some n ∉ (t.layered .method rest).map t.nameAt := by
    rw [← joins.layered_between above, ← names]
    refine joins.consistent.unnamed_of_overriddenSlot? lineage
      (inOrder_between joins above order) ?_ free
    intro R inside q member named
    have other : R ≠ D := by
      rintro rfl
      exact above inside
    rw [joins.contents_between other] at member
    rw [joins.names_between] at named
    rw [joins.kinds_between]
    exact agree R inside q member named
  have fresh : t.nameAt x ∉ (t.layered .method (D :: rest)).map t.nameAt := by
    rw [joins.name]
    intro listed
    obtain ⟨q, inside, named⟩ := List.mem_map.mp listed
    rcases mem_of_mem_overlay inside with here | there
    · exact joins.unnamed q (mem_own.mp here).1 named
    · exact unnamed (named ▸ List.mem_map_of_mem there)
  have list : u.layered .method (D :: rest) = t.layered .method (D :: rest) ++ [x] := by
    rw [joins.layered_here above, put_of_not_mem fresh]
  constructor
  case order =>
    rw [InOrder, list, List.map_append, joins.slots_layered, tabled.order, List.length_append,
      List.length_singleton, List.range_succ, List.map_append, List.map_singleton,
      List.map_singleton, joins.slots, if_pos rfl, length]
  case counted =>
    intro v set
    rw [next, if_pos ⟨rfl, rfl⟩] at set
    rw [list, List.length_append, List.length_singleton, ← length]
    exact (Option.some.inj set).symm
  case uncounted =>
    intro unset
    rw [next, if_pos ⟨rfl, rfl⟩] at unset
    cases unset

/-- What concerns no class of the chain leaves the list as it is. -/
theorem congr (tabled : t.Tabled D rest)
    (still : ∀ E ∈ D :: rest, Undisturbed .method t u E) : u.Tabled D rest := by
  have above := layered_of_undisturbed fun E inside => still E (List.mem_cons_of_mem D inside)
  have here := layered_of_undisturbed still
  have next := (still D List.mem_cons_self).next
  refine ⟨?_, fun {slot} set => ?_, fun unset => ?_⟩
  · rw [InOrder, here, slots_of_undisturbed still]
    exact tabled.order
  · rw [next] at set
    rw [here]
    exact tabled.counted set
  · rw [next] at unset
    rw [above, here]
    exact tabled.uncounted unset

end Tabled

/-- When all classes with methods of their own have their lists in order, so has every class
with a lineage. -/
theorem Lineage.inOrder (lineage : t.Lineage C l)
    (tabled : ∀ D rest, t.own .method D ≠ [] → t.Lineage D (D :: rest) → t.Tabled D rest) :
    t.InOrder (t.layered .method l) := by
  induction lineage.walk with
  | @stop D ends =>
    by_cases none : t.own .method D = []
    · rw [layered, none]
      rfl
    · exact (tabled D [] none (lineage_iff.mpr (.stop ends))).order
  | @step D P rest goes walk ih =>
    by_cases none : t.own .method D = []
    · rw [layered, none]
      exact ih (lineage_iff.mpr walk)
    · exact (tabled D rest none (lineage_iff.mpr (.step goes walk))).order

theorem Consistent.methods_of_lineage (consistent : t.Consistent) (lineage : t.Lineage C l) :
    t.methods C = .ok (t.layered .method l) ∧
      t.methodCount C = .ok (t.layered .method l).length := by
  have given := hasSymbol_of_mem_walk lineage.walk lineage.walk.mem_start
  have methods : t.methods C = .ok (t.layered .method l) :=
    consistent.visibleMembers given lineage.1 .method
  refine ⟨methods, ?_⟩
  rw [methodCount, methods]
  rfl

/-- `m` is defined in the body of `D`, and is of the kind `k`. -/
def Member (t : Table) (D m : SymbolId) (k : Kind) : Prop :=
  ∃ s, t.owningScope? m = .ok (some s) ∧ t.scopeOwner? s = .ok (some D) ∧ t.kind m = .ok k

instance decidableMember (t : Table) (D m : SymbolId) (k : Kind) : Decidable (t.Member D m k) :=
  decidable_of_iff (∃ o ∈ (t.owningScope? m).toOption, ∃ s ∈ o,
      t.scopeOwner? s = .ok (some D) ∧ t.kind m = .ok k) <| by
    simp only [Option.mem_def, Answer.toOption_eq_some_iff, Member]
    constructor
    · rintro ⟨_, home, s, rfl, rest⟩
      exact ⟨s, home, rest⟩
    · rintro ⟨s, home, rest⟩
      exact ⟨some s, home, s, rfl, rest⟩

theorem Consistent.member_of_mem (consistent : t.Consistent) (member : m ∈ t.contents D)
    (kind : t.kindAt m = some k) : t.Member D m k := by
  obtain ⟨a, s, c, symbol, home, scope, owned, _⟩ := consistent.member_contents member
  rw [kindAt_of_symbol symbol, Option.some.injEq] at kind
  refine ⟨s, ?_, ?_, ?_⟩
  · rw [owningScope?, symbol]
    exact congrArg Except.ok home
  · rw [scopeOwner?, scope]
    exact congrArg Except.ok owned
  · rw [kind_of_symbol symbol, kind]

/-- The members of a struct or class are the symbols that are defined in its body. -/
theorem Consistent.mem_own_iff (consistent : t.Consistent) :
    m ∈ t.own k D ↔ t.IsAggregate D ∧ t.Member D m k := by
  rw [mem_own]
  constructor
  · rintro ⟨member, kind⟩
    exact ⟨.of_mem member, consistent.member_of_mem member kind⟩
  · rintro ⟨aggregate, s, home, owner, kind⟩
    obtain ⟨a, symbol, home⟩ := owningScope?_eq_ok_iff.mp home
    obtain ⟨c, scope, owned⟩ := Answer.bind_eq_ok_iff.mp owner
    obtain ⟨a', symbol', kind⟩ := Answer.bind_eq_ok_iff.mp kind
    cases Except.ok.inj (symbol.symm.trans symbol')
    refine ⟨?_, by rw [kindAt_of_symbol symbol, Except.ok.inj kind]⟩
    rw [consistent.contents_of_scope aggregate scope (Except.ok.inj owned), Array.mem_toList_iff]
    exact (consistent.mem_members_iff scope).mpr ⟨a, symbol, home⟩

end Table

namespace Run

open Table

variable {r : Run} {C D : SymbolId} {l : List SymbolId} {i : Nat}

/-- No two classes of one chain define a method and another member of the same name. -/
def MethodsAgree (r : Run) : Prop :=
  ∀ C l D E m q n k, r.final.chain C = .ok l → D ∈ l → E ∈ l → D ≠ E →
    r.final.Member D m .method → r.final.Member E q k →
    r.final.name m = .ok n → r.final.name q = .ok n → k = .method

/-- `MethodsAgree`, over the symbols that there are. -/
theorem methodsAgree_iff : r.MethodsAgree ↔ ∀ C ∈ r.final.everySymbol,
    ∀ l ∈ (r.final.chain C).toOption, ∀ D ∈ l, ∀ E ∈ l, D ≠ E → ∀ m ∈ r.final.everySymbol,
      r.final.Member D m .method → ∀ q ∈ r.final.everySymbol,
        r.final.nameAt m = r.final.nameAt q → ∀ k ∈ r.final.kindAt q,
          r.final.Member E q k → k = .method := by
  constructor
  · intro agree C _ l chain D here E there apart m _ member q _ same k kind member'
    obtain ⟨b, symbol, _⟩ := kindAt_eq_some_iff.mp kind
    have named := nameAt_of_symbol symbol
    exact agree C l D E m q b.name k (Answer.toOption_eq_some_iff.mp chain) here there apart
      member member' (name_eq_ok_iff.mpr (same.trans named)) (name_eq_ok_iff.mpr named)
  · intro checked C l D E m q n k chain here there apart member member' named named'
    have given : ∀ {x n}, r.final.name x = .ok n → r.final.HasSymbol x := by
      intro x n named
      obtain ⟨a, symbol, _⟩ := nameAt_eq_some_iff.mp (name_eq_ok_iff.mp named)
      exact hasSymbol_iff.mpr ⟨a, symbol⟩
    obtain ⟨rest, found, _⟩ := Answer.bind_eq_ok_iff.mp chain
    obtain ⟨_, above, _⟩ := Answer.bind_eq_ok_iff.mp found
    obtain ⟨_, _, _, read⟩ := id member'
    obtain ⟨b, symbol, shape⟩ := Answer.bind_eq_ok_iff.mp read
    cases shape
    refine checked C (mem_everySymbol.mpr (hasSymbol_of_superclassWithin above)) l
      (Answer.toOption_eq_some_iff.mpr chain) D here E there apart m
      (mem_everySymbol.mpr (given named)) member q (mem_everySymbol.mpr (given named')) ?_
      b.kind (kindAt_of_symbol symbol) member'
    exact (name_eq_ok_iff.mp named).trans (name_eq_ok_iff.mp named').symm

set_option synthInstance.maxSize 1000 in
instance decidableMethodsAgree (r : Run) : Decidable r.MethodsAgree :=
  decidable_of_iff' _ methodsAgree_iff

/-- A member above of the name of a method is a method, because it will be there at the
end, as the method will. -/
theorem MethodsAgree.above (agree : r.MethodsAgree) (settled : r.Settled .method)
    (defines : r.Defines i .method D x) {w : Table} {n : Name} {slot : Nat}
    (joins : Joins (r.state i) w (r.state (i + 1)) .method D x n slot) {rest : List SymbolId}
    (lineage : (r.state i).Lineage D (D :: rest)) : ∀ R ∈ rest, ∀ q ∈ (r.state i).contents R,
      (r.state i).nameAt q = some n → (r.state i).kindAt q = some .method := by
  intro R inside q member named
  have later := r.grows (i := i + 1) (j := r.operations.length) defines.lt
  have grows := (r.grows_succ i).trans later
  have ends := r.consistent r.operations.length
  have given := (r.consistent i).hasSymbol_of_mem member
  have newcomer := (mem_own.mp joins.mem_own_here).1
  have given' := (r.consistent (i + 1)).hasSymbol_of_mem newcomer
  obtain ⟨kind, _, kindAt⟩ := kind_eq_ok given
  have here := ends.member_of_mem (later.contents newcomer)
    ((later.kind given').trans ((joins.kinds x).trans joins.kind))
  have there := ends.member_of_mem (grows.contents member) ((grows.kind given).trans kindAt)
  have named' := name_eq_ok_iff.mpr
    ((later.name given').trans ((joins.names x).trans joins.name))
  obtain ⟨l, known, stays⟩ := settled i D x defines
  have same := known.unique lineage
  subst same
  have apart : D ≠ R := by
    rintro rfl
    exact (List.nodup_cons.mp lineage.walk.nodup).1 inside
  have equal := agree D (D :: rest) D R x q n kind
    (stays r.operations.length (Nat.le_of_lt defines.lt)) List.mem_cons_self
    (List.mem_cons_of_mem D inside) apart here there named'
    (name_eq_ok_iff.mpr ((grows.name given).trans named))
  rw [kindAt, equal]

theorem tabled (settled : r.Settled .method) (ordered : r.SuperclassFirst .method)
    (agree : r.MethodsAgree) {rest : List SymbolId} (some : (r.state i).own .method D ≠ [])
    (lineage : (r.state i).Lineage D (D :: rest)) : (r.state i).Tabled D rest := by
  have needs : ∀ i, (r.state i).slotNeedsSuperclass .method = true := by
    intro i
    simp [slotNeedsSuperclass]
  refine superclassFirst_induction (P := Tabled) (.inr rfl) needs settled ordered ?_ ?_ some
    lineage
  · exact fun t u D rest still tabled => tabled.congr still
  · intro i D x rest w n slot defines joins lineage lineage' tabled
    have between := joins.lineage_between lineage'
    have order : (r.state i).InOrder ((r.state i).layered .method rest) := by
      rcases lineage.superclass with ⟨rfl, _⟩ | ⟨P, _, further⟩
      · rfl
      · exact further.inOrder tabled
    have before : (r.state i).Tabled D rest := by
      by_cases none : (r.state i).own .method D = []
      · exact .of_own_nil order none (next_of_own_nil (.inr rfl) none)
      · exact tabled D rest none lineage
    rcases joins.due with ⟨_, taken, next⟩ | ⟨free, due, next⟩
    · exact before.overriding joins between order taken next
    · exact before.extending joins between order (agree.above settled defines joins lineage)
        (free rfl) due next

/-- When classes get their methods superclass first, the methods of a class have the slots
0, 1, 2, … in the order of the list, and the list of a superclass is the start of it. -/
theorem dispatch_tables (r : Run) (settled : r.Settled .method)
    (ordered : r.SuperclassFirst .method) (agree : r.MethodsAgree) (C : SymbolId)
    (l : List SymbolId) (lineage : r.final.Lineage C l) :
    ∃ ms, r.final.methods C = .ok ms ∧ r.final.methodCount C = .ok ms.length ∧
      ms.mapM r.final.slot? = .ok ((List.range ms.length).map some) ∧
      r.final.superclassChain C = .ok l.tail ∧
      ∀ P ∈ l.tail, ∃ ps names, r.final.methods P = .ok ps ∧
        r.final.methodCount P = .ok ps.length ∧ ps.length ≤ ms.length ∧
        ps.mapM r.final.name = .ok names ∧
        (ms.take ps.length).mapM r.final.name = .ok names ∧
        ps.mapM r.final.slot? = .ok ((List.range ps.length).map some) ∧
        (ms.take ps.length).mapM r.final.slot? = .ok ((List.range ps.length).map some) := by
  have consistent : r.final.Consistent := r.consistent _
  have order : ∀ {D rest}, r.final.Lineage D rest →
      r.final.InOrder (r.final.layered .method rest) :=
    fun known => known.inOrder fun D rest some lineage =>
      tabled settled ordered agree some lineage
  have given : ∀ rest, ∀ m ∈ r.final.layered .method rest, r.final.HasSymbol m :=
    fun rest m member => consistent.hasSymbol_of_mem_layered member
  obtain ⟨methods, count⟩ := consistent.methods_of_lineage lineage
  refine ⟨_, methods, count, ?_, ?_, ?_⟩
  · rw [mapM_slot? (given l), order lineage]
  · rw [superclassChain, lineage.1]
    rfl
  · intro P above
    obtain ⟨before, after, rfl, walk⟩ := lineage.walk.from_mem (List.mem_of_mem_tail above)
    have known := lineage_iff.mpr walk
    obtain ⟨methods', count'⟩ := consistent.methods_of_lineage known
    have short := length_layered_le r.final .method before after
    have start := take_names_layered r.final .method before after
    have given' : ∀ m ∈ (r.final.layered .method (before ++ after)).take
        (r.final.layered .method after).length, r.final.HasSymbol m :=
      fun m member => given _ m (List.mem_of_mem_take member)
    refine ⟨_, _, methods', count', short, mapM_name (given after), ?_, ?_, ?_⟩
    · rw [mapM_name given', start]
    · rw [mapM_slot? (given after), order known]
    · rw [mapM_slot? given', (order lineage).take short]

/-- Three classes, one below the other: each overrides a method and adds one, and the last
also overrides one of the first. -/
def hierarchy : Run where
  config := {}
  operations := [
    .declare "A" (.classType none), .define .global ⟨0⟩,
    .declare "m" (.method none), .define ⟨2⟩ ⟨1⟩,
    .declare "n" (.method none), .define ⟨2⟩ ⟨2⟩,
    .declare "f" (.field none), .define ⟨2⟩ ⟨3⟩,
    .declare "B" (.classType (some "A")), .define .global ⟨4⟩,
    .declare "k" (.method none), .define ⟨5⟩ ⟨5⟩,
    .declare "n" (.method none), .define ⟨5⟩ ⟨6⟩,
    .declare "C" (.classType (some "B")), .define .global ⟨7⟩,
    .declare "k" (.method none), .define ⟨8⟩ ⟨8⟩,
    .declare "h" (.method none), .define ⟨8⟩ ⟨9⟩,
    .declare "m" (.method none), .define ⟨8⟩ ⟨10⟩]
  accepted := by decide +kernel

theorem dispatch_tables_hierarchy :
    hierarchy.Settled .method ∧ hierarchy.SuperclassFirst .method ∧ hierarchy.MethodsAgree ∧
      hierarchy.final.Lineage ⟨7⟩ [⟨7⟩, ⟨4⟩, ⟨0⟩] ∧
      hierarchy.final.methods ⟨7⟩ = .ok [⟨10⟩, ⟨6⟩, ⟨8⟩, ⟨9⟩] ∧
      ∃ ms, hierarchy.final.methods ⟨7⟩ = .ok ms ∧
        ms.mapM hierarchy.final.slot? = .ok ((List.range ms.length).map some) := by
  have settled : hierarchy.Settled .method := by decide +kernel
  have ordered : hierarchy.SuperclassFirst .method := by decide +kernel
  have agree : hierarchy.MethodsAgree := by decide +kernel
  have lineage : hierarchy.final.Lineage ⟨7⟩ [⟨7⟩, ⟨4⟩, ⟨0⟩] := by decide +kernel
  obtain ⟨ms, methods, _, slots, _⟩ :=
    hierarchy.dispatch_tables settled ordered agree ⟨7⟩ [⟨7⟩, ⟨4⟩, ⟨0⟩] lineage
  exact ⟨settled, ordered, agree, lineage, by decide +kernel, ms, methods, slots⟩

end Run

end Scoping
