import Scoping.Proofs.Calm

/-!
# Members that stay as they are

A step concerns the members of one kind in one class at most. Seen from any other class
or kind nothing happens, and the listings along a chain stay as they are when no class
of the chain is concerned.
-/

namespace Scoping

namespace Table

variable {t u w : Table} {j k : Kind} {D E x y : SymbolId} {l rest : List SymbolId} {n : Name}
  {slot : Nat}

/-- The members of the kind in the class are those of before, with their slots. -/
structure Undisturbed (k : Kind) (t u : Table) (D : SymbolId) : Prop where
  own : u.own k D = t.own k D
  names : ∀ m ∈ t.own k D, u.nameAt m = t.nameAt m
  slots : ∀ m ∈ t.own k D, u.slotAt m = t.slotAt m
  next : u.nextAt k D = t.nextAt k D

theorem Consistent.undisturbed (consistent : t.Consistent) (calm : Calm t u)
    (slotted : k.Slotted) (D : SymbolId) : Undisturbed k t u D where
  own := calm.own D slotted
  names _ member := calm.name (consistent.hasSymbol_of_mem_own member)
  slots m _ := calm.slot m
  next := calm.next k D

/-- A listing depends on the classes of the chain only. -/
theorem layered_of_undisturbed (still : ∀ D ∈ l, Undisturbed k t u D) :
    u.layered k l = t.layered k l :=
  layered_congr (fun D inside => (still D inside).names) fun D inside => (still D inside).own

theorem slots_of_undisturbed (still : ∀ D ∈ l, Undisturbed k t u D) :
    (t.layered k l).map u.slotAt = (t.layered k l).map t.slotAt := by
  refine List.map_congr_left fun m member => ?_
  obtain ⟨D, inside, own⟩ := exists_own_of_mem_layered member
  exact (still D inside).slots m own

namespace Joins

theorem slot_of_mem (joins : Joins t w u k D x n slot) (member : y ∈ t.own j E) :
    u.slotAt y = t.slotAt y := by
  have apart : x ≠ y := by
    rintro rfl
    exact joins.undefined E (mem_own.mp member).1
  rw [joins.slots, if_neg apart]

/-- Only the members of the kind in the class are concerned. -/
theorem undisturbed (joins : Joins t w u k D x n slot) (other : j ≠ k ∨ E ≠ D) :
    Undisturbed j t u E := by
  constructor
  case own =>
    rw [own, own]
    simp only [joins.kinds]
    by_cases here : E = D
    · subst here
      have apart : k ≠ j := Ne.symm (other.resolve_right fun ne => ne rfl)
      rw [joins.here, List.filter_append]
      simp [joins.kind, apart]
    · rw [joins.elsewhere E here]
  case names => exact fun m _ => joins.names m
  case slots => exact fun m member => joins.slot_of_mem member
  case next =>
    rcases joins.due with ⟨_, _, next⟩ | ⟨_, _, next⟩
    · exact next j E
    · rw [next, if_neg]
      rintro ⟨rfl, rfl⟩
      exact other.elim (fun ne => ne rfl) fun ne => ne rfl

theorem own_here (joins : Joins t w u k D x n slot) : u.own k D = t.own k D ++ [x] := by
  rw [own, own, joins.here, List.filter_append]
  simp only [joins.kinds]
  simp [joins.kind]

theorem mem_own_here (joins : Joins t w u k D x n slot) : x ∈ u.own k D := by
  rw [joins.own_here]
  exact List.mem_append_right _ (List.mem_singleton_self x)

/-- The classes above are not concerned. -/
theorem undisturbed_above (joins : Joins t w u k D x n slot) (above : D ∉ rest) :
    ∀ E ∈ rest, Undisturbed j t u E := by
  intro E inside
  refine joins.undisturbed (.inr ?_)
  rintro rfl
  exact above inside

theorem layered_here (joins : Joins t w u k D x n slot) (above : D ∉ rest) :
    u.layered k (D :: rest) = put t.nameAt (t.layered k (D :: rest)) x := by
  have names : u.nameAt = t.nameAt := funext joins.names
  rw [layered, layered_of_undisturbed (joins.undisturbed_above above), joins.own_here, names,
    overlay_concat]
  rfl

/-- The members listed before keep their slots. -/
theorem slots_layered (joins : Joins t w u k D x n slot) (l : List SymbolId) :
    (t.layered j l).map u.slotAt = (t.layered j l).map t.slotAt := by
  refine List.map_congr_left fun m member => ?_
  obtain ⟨E, _, inside⟩ := exists_own_of_mem_layered member
  exact joins.slot_of_mem inside

/-! The table in between has the names and kinds of the one before, and its members but for
the one that joined. -/

theorem names_between (joins : Joins t w u k D x n slot) (y : SymbolId) :
    w.nameAt y = t.nameAt y := joins.same.nameAt_eq.symm.trans (joins.names y)

theorem kinds_between (joins : Joins t w u k D x n slot) (y : SymbolId) :
    w.kindAt y = t.kindAt y := joins.same.kindAt_eq.symm.trans (joins.kinds y)

theorem contents_between (joins : Joins t w u k D x n slot) (other : E ≠ D) :
    w.contents E = t.contents E :=
  (joins.same.contents_eq E).symm.trans (joins.elsewhere E other)

theorem layered_between (joins : Joins t w u k D x n slot) (above : D ∉ rest) :
    w.layered j rest = t.layered j rest := by
  rw [← layered_of_undisturbed (joins.undisturbed_above above)]
  refine layered_congr (fun _ _ _ _ => joins.same.nameAt_eq.symm) fun E _ => ?_
  exact (joins.same.own_eq j E).symm

theorem lineage_between (joins : Joins t w u k D x n slot) (lineage : u.Lineage E l) :
    w.Lineage E l := by
  rw [Lineage, joins.same.aspect.chain_eq, joins.same.aspect.superclass_eq]
  exact lineage

end Joins

/-! ### Lineages with slots -/

/-- A class is only given slots when the end of its lineage names no superclass. -/
theorem Lineage.unnamed {l : List SymbolId} (lineage : t.Lineage D l)
    (complete : t.missingSuperclass? D = .ok none) : t.superclassAt (l.getLastD D) = none := by
  obtain ⟨chain, ends⟩ := lineage
  rw [missingSuperclass?, chain, Answer.ok_bind] at complete
  obtain ⟨text, read, complete⟩ := Answer.bind_eq_ok_iff.mp complete
  rw [ends, Answer.ok_bind] at complete
  obtain ⟨a, symbol, read⟩ := Answer.bind_eq_ok_iff.mp read
  cases named : a.form.superclassName? with
  | none =>
    rw [superclassAt, symbols_of_symbol symbol]
    exact named
  | some name =>
    rw [named] at read
    cases read
    obtain ⟨_, _, complete⟩ := Answer.bind_eq_ok_iff.mp complete
    cases complete

theorem Consistent.superclass_of_unnamed (consistent : t.Consistent) (given : t.HasSymbol x)
    (unnamed : t.superclassAt x = none) : t.superclass x = .ok none := by
  obtain ⟨a, read⟩ := hasSymbol_iff.mp given
  rw [superclassAt, symbols_of_symbol read, Option.bind_some] at unnamed
  rw [consistent.superclass_eq given, superclassVia, read]
  simp [unnamed]

end Table

end Scoping
