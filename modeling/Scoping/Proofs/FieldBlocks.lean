import Scoping.Proofs.Timeline

/-!
# Field blocks

With the inherited layout, the fields of a class get the slots that follow the number of
fields visible through its superclass, one after the other. That is a free block as long
as the slots above are just those below that number. They need not be: a class that
redeclares an inherited name has as many fields to show as before, but one slot more in
use, and the block of the next class below then starts too early.
-/

namespace Scoping

namespace Table

variable {t u w : Table} {C D E P f x : SymbolId} {l rest : List SymbolId} {n : Name} {slot : Nat}

/-- Of the fields `ps` of a superclass, those that a class with the fields `ds` does not
redeclare have no slot in the block of the class. The slot is told by where the field was
declared: in the class `E`, after `i` others. -/
def FieldsOutside (t : Table) (ps ds : List SymbolId) : Prop :=
  ∀ E base es i f, t.fieldBase E = .ok base → t.definedFields E = .ok es → es[i]? = some f →
    f ∈ ps → (∀ g ∈ ds, t.name g ≠ t.name f) →
      base + i < ps.length ∨ ps.length + ds.length ≤ base + i

/-- No field that shows through a superclass has its slot in the block of the class, unless
the class redeclares it. -/
def BlocksClear (t : Table) : Prop :=
  ∀ D P ds ps, t.superclass D = .ok (some P) → t.definedFields D = .ok ds →
    t.fields P = .ok ps → t.FieldsOutside ps ds

set_option synthInstance.maxSize 1000 in
instance decidableFieldsOutside (t : Table) (ps ds : List SymbolId) :
    Decidable (t.FieldsOutside ps ds) :=
  decidable_of_iff (∀ E ∈ t.everySymbol, ∀ base ∈ (t.fieldBase E).toOption,
      ∀ es ∈ (t.definedFields E).toOption, ∀ i, i < es.length → ∀ f ∈ es[i]?, f ∈ ps →
        (∀ g ∈ ds, t.name g ≠ t.name f) →
          base + i < ps.length ∨ ps.length + ds.length ≤ base + i) <| by
    simp only [Option.mem_def, Answer.toOption_eq_some_iff]
    constructor
    · intro checked E base es i f start fields nth
      obtain ⟨_, above, _⟩ := Answer.bind_eq_ok_iff.mp start
      exact checked E (mem_everySymbol.mpr (hasSymbol_of_superclassWithin above)) base start es
        fields i (List.getElem?_eq_some_iff.mp nth).1 f nth
    · intro outside E _ base start es fields i _ f nth
      exact outside E base es i f start fields nth

instance decidableBlocksClear (t : Table) : Decidable t.BlocksClear :=
  decidable_of_iff (∀ D ∈ t.everySymbol, ∀ above ∈ (t.superclass D).toOption, ∀ P ∈ above,
      ∀ ds ∈ (t.definedFields D).toOption, ∀ ps ∈ (t.fields P).toOption,
        t.FieldsOutside ps ds) <| by
    simp only [Option.mem_def, Answer.toOption_eq_some_iff]
    constructor
    · intro checked D P ds ps above defined shown
      exact checked D (mem_everySymbol.mpr (hasSymbol_of_superclassWithin above)) _ above P rfl
        ds defined ps shown
    · rintro clear D _ _ above P rfl ds defined ps shown
      exact clear D P ds ps above defined shown

theorem Consistent.fieldBase (consistent : t.Consistent)
    (inherited : t.config.fieldLayout = .inherited) (lineage : t.Lineage D (D :: rest)) :
    t.fieldBase D = .ok (t.layered .field rest).length := by
  rw [Table.fieldBase, inherited]
  rcases lineage.superclass with ⟨rfl, none⟩ | ⟨P, above, further⟩
  · rw [none]
    rfl
  · have given := hasSymbol_of_mem_walk further.walk further.walk.mem_start
    rw [above]
    simp only [Answer.ok_bind, fieldCount, fields, consistent.visibleMembers given further.1]
    rfl

/-- The fields of a class have a block of slots, and the counter is the end of it. -/
structure Blocked (t : Table) (D : SymbolId) (rest : List SymbolId) : Prop where
  slots : (t.own .field D).map t.slotAt =
    (List.range' (t.layered .field rest).length (t.own .field D).length).map some
  next : t.nextAt .field D = some ((t.layered .field rest).length + (t.own .field D).length)

theorem Blocked.congr (blocked : t.Blocked D rest)
    (still : ∀ E ∈ D :: rest, Undisturbed .field t u E) : u.Blocked D rest := by
  have here := still D List.mem_cons_self
  have above := layered_of_undisturbed fun E inside => still E (List.mem_cons_of_mem D inside)
  have slots : (t.own .field D).map u.slotAt = (t.own .field D).map t.slotAt :=
    List.map_congr_left here.slots
  constructor
  case slots => rw [here.own, above, slots, blocked.slots]
  case next => rw [here.next, here.own, above, blocked.next]

/-- One more field gets the slot behind those of the fields before. -/
theorem Blocked.joins (joins : Joins t w u .field D x n slot)
    (inherited : t.config.fieldLayout = .inherited) (lineage : w.Lineage D (D :: rest))
    (before : t.own .field D ≠ [] → t.Blocked D rest)
    (unset : t.own .field D = [] → t.nextAt .field D = none) : u.Blocked D rest := by
  have above : D ∉ rest := (List.nodup_cons.mp lineage.walk.nodup).1
  have given : w.HasSymbol D := hasSymbol_of_mem_walk lineage.walk lineage.walk.mem_start
  have rest' := layered_of_undisturbed (k := .field) (joins.undisturbed_above above)
  rcases joins.due with ⟨method, _⟩ | ⟨_, due, next⟩
  · cases method
  · rw [nextSlot_eq (.inl rfl) given, joins.nextBefore] at due
    have place : slot = (t.layered .field rest).length + (t.own .field D).length := by
      by_cases first : t.own .field D = []
      · have base := joins.consistent.fieldBase (joins.configBefore ▸ inherited) lineage
        rw [unset first, slotBase] at due
        rw [joins.layered_between above] at base
        rw [first, List.length_nil, Nat.add_zero]
        exact Except.ok.inj (due.symm.trans base)
      · rw [(before first).next] at due
        exact (Except.ok.inj due).symm
    have slots : (t.own .field D).map t.slotAt =
        (List.range' (t.layered .field rest).length (t.own .field D).length).map some := by
      by_cases first : t.own .field D = []
      · rw [first]
        rfl
      · exact (before first).slots
    have kept : (t.own .field D).map u.slotAt = (t.own .field D).map t.slotAt :=
      List.map_congr_left fun m member => joins.slot_of_mem member
    constructor
    case slots =>
      rw [joins.own_here, rest', List.map_append, kept, slots, List.length_append,
        List.length_singleton, List.range'_1_concat, List.map_append, List.map_singleton,
        List.map_singleton, joins.slots, if_pos rfl, place]
    case next =>
      rw [next, if_pos ⟨rfl, rfl⟩, joins.own_here, rest', List.length_append,
        List.length_singleton, place]
      rfl

/-! ### When blocks are free -/

/-- No field of the classes above that is not redeclared has its slot in the block. -/
def Clear (t : Table) (D : SymbolId) (rest : List SymbolId) : Prop :=
  ∀ f ∈ t.layered .field rest, t.nameAt f ∉ (t.own .field D).map t.nameAt →
    ∀ v, t.slotAt f = some v → v < (t.layered .field rest).length ∨
      (t.layered .field rest).length + (t.own .field D).length ≤ v

theorem Blocked.slotAt_getElem {i : Nat} (blocked : t.Blocked D rest)
    (nth : (t.own .field D)[i]? = some f) :
    t.slotAt f = some ((t.layered .field rest).length + i) := by
  have entry := congrArg (fun slots => slots[i]?) blocked.slots
  have short : i < (t.own .field D).length := (List.getElem?_eq_some_iff.mp nth).1
  simp only [List.getElem?_map, nth, Option.map_some, List.getElem?_range' short,
    Nat.one_mul] at entry
  exact Option.some.inj entry

theorem mem_layered_cons (consistent : t.Consistent) : f ∈ t.layered .field (D :: rest) ↔
    f ∈ t.own .field D ∨
      f ∈ t.layered .field rest ∧ t.nameAt f ∉ (t.own .field D).map t.nameAt :=
  mem_overlay_iff (names_layered _ _) (consistent.names_own _ _)

/-- Distinct slots leave the block free. -/
theorem Blocked.clear (blocked : t.Blocked D rest) (consistent : t.Consistent)
    (distinct : t.DistinctSlots (t.layered .field (D :: rest))) : t.Clear D rest := by
  rw [consistent.distinctSlots_iff] at distinct
  intro f listed unnamed v slotted
  by_contra inside
  obtain ⟨i, rfl⟩ : ∃ i, v = (t.layered .field rest).length + i :=
    ⟨v - (t.layered .field rest).length, by omega⟩
  have short : i < (t.own .field D).length := by omega
  have nth := List.getElem?_eq_getElem short
  have member := List.getElem_mem short
  have same := distinct f ((mem_layered_cons consistent).mpr (.inr ⟨listed, unnamed⟩))
    _ ((mem_layered_cons consistent).mpr (.inl member))
    (slotted.trans (blocked.slotAt_getElem nth).symm)
  exact unnamed (same ▸ List.mem_map_of_mem member)

/-- A block that is free keeps the slots distinct. -/
theorem Blocked.distinct (blocked : t.Blocked D rest) (consistent : t.Consistent)
    (above : t.DistinctSlots (t.layered .field rest)) (clear : t.Clear D rest) :
    t.DistinctSlots (t.layered .field (D :: rest)) := by
  rw [consistent.distinctSlots_iff] at above ⊢
  have apart : ∀ f ∈ t.own .field D, ∀ g ∈ t.layered .field rest,
      t.nameAt g ∉ (t.own .field D).map t.nameAt → t.slotAt f ≠ t.slotAt g := by
    intro f here g there unnamed same
    obtain ⟨i, nth⟩ := List.mem_iff_getElem?.mp here
    have short : i < (t.own .field D).length := (List.getElem?_eq_some_iff.mp nth).1
    have outside := clear g there unnamed _ (same ▸ blocked.slotAt_getElem nth)
    omega
  intro f listed g listed' same
  rcases (mem_layered_cons consistent).mp listed with here | ⟨there, unnamed⟩
  · rcases (mem_layered_cons consistent).mp listed' with here' | ⟨there', unnamed'⟩
    · obtain ⟨i, nth⟩ := List.mem_iff_getElem?.mp here
      obtain ⟨j, nth'⟩ := List.mem_iff_getElem?.mp here'
      rw [blocked.slotAt_getElem nth, blocked.slotAt_getElem nth', Option.some.injEq] at same
      obtain rfl : i = j := by omega
      exact Option.some.inj (nth.symm.trans nth')
    · exact absurd same (apart f here g there' unnamed')
  · rcases (mem_layered_cons consistent).mp listed' with here' | ⟨there', unnamed'⟩
    · exact absurd same.symm (apart g here' f there unnamed)
    · exact above f there g there' same

/-- When the classes with fields have blocks, all slots are distinct just when all blocks
are free. -/
theorem Consistent.distinct_iff_clear (consistent : t.Consistent)
    (blocked : ∀ D rest, t.own .field D ≠ [] → t.Lineage D (D :: rest) → t.Blocked D rest) :
    (∀ C l, t.Lineage C l → t.DistinctSlots (t.layered .field l)) ↔
      ∀ D rest, t.Lineage D (D :: rest) → t.Clear D rest := by
  constructor
  · intro distinct D rest lineage f listed unnamed v slotted
    by_cases none : t.own .field D = []
    · rw [none, List.length_nil, Nat.add_zero]
      exact Nat.lt_or_ge v _
    · exact (blocked D rest none lineage).clear consistent (distinct D _ lineage) f listed
        unnamed v slotted
  · intro clear C l lineage
    have step : ∀ D rest, t.Lineage D (D :: rest) → t.DistinctSlots (t.layered .field rest) →
        t.DistinctSlots (t.layered .field (D :: rest)) := by
      intro D rest lineage above
      by_cases none : t.own .field D = []
      · rw [layered, none]
        exact above
      · exact (blocked D rest none lineage).distinct consistent above (clear D rest lineage)
    induction lineage.walk with
    | stop ends => exact step _ [] (lineage_iff.mpr (.stop ends)) List.Pairwise.nil
    | step goes walk ih =>
      exact step _ _ (lineage_iff.mpr (.step goes walk)) (ih (lineage_iff.mpr walk))

/-- What classes without a lineage show is nothing, when they have no members. -/
theorem Consistent.distinct_iff_lineages (consistent : t.Consistent)
    (founded : ∀ D, t.own .field D ≠ [] → ∃ l, t.Lineage D l) :
    (∀ C, t.HasSymbol C → ∃ fs, t.fields C = .ok fs ∧ t.DistinctSlots fs) ↔
      ∀ C l, t.Lineage C l → t.DistinctSlots (t.layered .field l) := by
  constructor
  · intro distinct C l lineage
    have given := hasSymbol_of_mem_walk lineage.walk lineage.walk.mem_start
    obtain ⟨fs, listed, apart⟩ := distinct C given
    cases Except.ok.inj ((consistent.visibleMembers given lineage.1 .field).symm.trans listed)
    exact apart
  · intro distinct C given
    obtain ⟨l, chain, _⟩ := consistent.settles.chainVia given
    refine ⟨_, consistent.visibleMembers given chain .field, ?_⟩
    by_cases empty : t.layered .field l = []
    · rw [empty]
      exact List.Pairwise.nil
    · obtain ⟨f, listed⟩ := List.exists_mem_of_ne_nil _ empty
      obtain ⟨E, inside, member⟩ := exists_own_of_mem_layered listed
      obtain ⟨m, lineage⟩ := founded E (List.ne_nil_of_mem member)
      exact distinct C l (lineage.of_mem_chain chain inside)

section

variable (consistent : t.Consistent) (inherited : t.config.fieldLayout = .inherited)
  (blocked : ∀ D rest, t.own .field D ≠ [] → t.Lineage D (D :: rest) → t.Blocked D rest)
include consistent inherited blocked

/-- The slot of a field above follows from its class and its place there. -/
theorem exists_place (lineage : t.Lineage D (D :: rest)) (listed : f ∈ t.layered .field rest) :
    ∃ E base, f ∈ t.own .field E ∧ t.fieldBase E = .ok base ∧
      t.definedFields E = .ok (t.own .field E) ∧
      ∀ i, (t.own .field E)[i]? = some f → t.slotAt f = some (base + i) := by
  obtain ⟨E, inside, member⟩ := exists_own_of_mem_layered listed
  obtain ⟨_, after, _, walk⟩ := lineage.walk.from_mem (List.mem_cons_of_mem D inside)
  obtain ⟨above, rfl⟩ := walk.eq_cons
  have known := lineage_iff.mpr walk
  have aggregate := IsAggregate.of_mem (mem_own.mp member).1
  exact ⟨E, _, member, consistent.fieldBase inherited known,
    consistent.definedMembers aggregate .field,
    fun i nth => (blocked E above (List.ne_nil_of_mem member) known).slotAt_getElem nth⟩

theorem BlocksClear.clear (clear : t.BlocksClear) (lineage : t.Lineage D (D :: rest)) :
    t.Clear D rest := by
  intro f listed unnamed v slotted
  obtain ⟨E, base, member, start, fields, slots⟩ :=
    exists_place consistent inherited blocked lineage listed
  obtain ⟨i, nth⟩ := List.mem_iff_getElem?.mp member
  rw [slots i nth, Option.some.injEq] at slotted
  subst slotted
  rcases lineage.superclass with ⟨rfl, _⟩ | ⟨P, above, further⟩
  · simp [layered] at listed
  · have given := hasSymbol_of_mem_walk further.walk further.walk.mem_start
    have aggregate := consistent.isAggregate_of_superclass above
    refine clear D P _ _ above (consistent.definedMembers aggregate .field)
      (consistent.visibleMembers given further.1 .field) E base _ i f start fields nth listed ?_
    intro g redeclares same
    rw [name_eq_name_iff (consistent.hasSymbol_of_mem_layered listed)] at same
    exact unnamed (same ▸ List.mem_map_of_mem redeclares)

theorem blocksClear_of_clear (founded : ∀ D, t.own .field D ≠ [] → ∃ l, t.Lineage D l)
    (clear : ∀ D rest, t.Lineage D (D :: rest) → t.Clear D rest) : t.BlocksClear := by
  intro D P ds ps above defined shown E base es i f start fields nth listed unnamed
  have here := consistent.definedMembers (consistent.isAggregate_of_superclass above) .field
  cases Except.ok.inj (here.symm.trans defined)
  by_cases none : t.own .field D = []
  · rw [none, List.length_nil, Nat.add_zero]
    exact Nat.lt_or_ge _ _
  · obtain ⟨l, lineage⟩ := founded D none
    obtain ⟨rest, rfl⟩ := lineage.walk.eq_cons
    have further := lineage.of_superclass above
    have given := hasSymbol_of_mem_walk further.walk further.walk.mem_start
    have showing := consistent.visibleMembers given further.1 .field
    cases Except.ok.inj (showing.symm.trans shown)
    obtain ⟨E', base', member, start', fields', slots⟩ :=
      exists_place consistent inherited blocked lineage listed
    have same := consistent.mem_definedMembers fields (List.mem_of_getElem? nth)
      (mem_own.mp member).1
    subst same
    cases Except.ok.inj (fields'.symm.trans fields)
    cases Except.ok.inj (start'.symm.trans start)
    refine clear D rest lineage f listed ?_ _ (slots i nth)
    intro redeclared
    obtain ⟨g, inside, named⟩ := List.mem_map.mp redeclared
    exact unnamed g inside
      ((name_eq_name_iff (consistent.hasSymbol_of_mem_layered listed)).mpr named)

/-- Whether the blocks are free can be told from where the fields were declared. -/
theorem blocksClear_iff (founded : ∀ D, t.own .field D ≠ [] → ∃ l, t.Lineage D l) :
    t.BlocksClear ↔ ∀ D rest, t.Lineage D (D :: rest) → t.Clear D rest :=
  ⟨fun clear _ _ lineage => clear.clear consistent inherited blocked lineage,
    blocksClear_of_clear consistent inherited blocked founded⟩

end

end Table

namespace Run

open Table

variable {r : Run} {D : SymbolId} {rest : List SymbolId} {i : Nat}

theorem inherited_state (inherited : r.config.fieldLayout = .inherited) (i : Nat) :
    (r.state i).config.fieldLayout = .inherited := by
  rw [r.config_eq, inherited]

theorem field_needs_superclass (inherited : r.config.fieldLayout = .inherited) (i : Nat) :
    (r.state i).slotNeedsSuperclass .field = true := by
  simp [slotNeedsSuperclass, inherited_state inherited]

theorem blocked (inherited : r.config.fieldLayout = .inherited) (settled : r.Settled .field)
    (ordered : r.SuperclassFirst .field) (some : (r.state i).own .field D ≠ [])
    (lineage : (r.state i).Lineage D (D :: rest)) : (r.state i).Blocked D rest := by
  refine superclassFirst_induction (P := Blocked) (.inl rfl) (field_needs_superclass inherited)
    settled ordered ?_ ?_ some lineage
  · exact fun t u D rest still blocked => blocked.congr still
  · intro i D x rest w n slot defines joins lineage lineage' blocked
    exact .joins joins (inherited_state inherited i) (joins.lineage_between lineage')
      (fun some => blocked D rest some lineage) fun none => next_of_own_nil (.inl rfl) none

/-- The fields of all classes have distinct slots just when no block starts too early: when
no field that shows through a superclass, and is not redeclared, has its slot in the block
of the class. -/
theorem field_slots_distinct_iff (r : Run) (inherited : r.config.fieldLayout = .inherited)
    (settled : r.Settled .field) (ordered : r.SuperclassFirst .field) :
    (∀ C, r.final.HasSymbol C →
      ∃ fs, r.final.fields C = .ok fs ∧ r.final.DistinctSlots fs) ↔ r.final.BlocksClear := by
  have consistent : r.final.Consistent := r.consistent _
  have founded : ∀ D, r.final.own .field D ≠ [] → ∃ l, r.final.Lineage D l := by
    intro D some
    exact settled.lineage_of_own (.inl rfl) (field_needs_superclass inherited) some
  have blocks : ∀ D rest, r.final.own .field D ≠ [] → r.final.Lineage D (D :: rest) →
      r.final.Blocked D rest := by
    intro D rest some lineage
    exact blocked inherited settled ordered some lineage
  have layout : r.final.config.fieldLayout = .inherited := inherited_state inherited _
  rw [consistent.distinct_iff_lineages founded, consistent.distinct_iff_clear blocks,
    blocksClear_iff consistent layout blocks founded]

/-- Three classes with the inherited layout, of which two redeclare a field. -/
def redeclaring : Run where
  config := { fieldLayout := .inherited }
  operations := [
    .declare "A" (.classType none), .define .global ⟨0⟩,
    .declare "x" (.field none), .define ⟨2⟩ ⟨1⟩,
    .declare "y" (.field none), .define ⟨2⟩ ⟨2⟩,
    .declare "B" (.classType (some "A")), .define .global ⟨3⟩,
    .declare "x" (.field none), .define ⟨3⟩ ⟨4⟩,
    .declare "C" (.classType (some "B")), .define .global ⟨5⟩,
    .declare "x" (.field none), .define ⟨4⟩ ⟨6⟩]
  accepted := by decide +kernel

theorem field_slots_distinct_redeclaring :
    redeclaring.Settled .field ∧ redeclaring.SuperclassFirst .field ∧
      redeclaring.final.BlocksClear ∧ redeclaring.final.fields ⟨5⟩ = .ok [⟨6⟩, ⟨2⟩] ∧
      ∃ fs, redeclaring.final.fields ⟨5⟩ = .ok fs ∧ redeclaring.final.DistinctSlots fs := by
  have settled : redeclaring.Settled .field := by decide +kernel
  have ordered : redeclaring.SuperclassFirst .field := by decide +kernel
  have clear : redeclaring.final.BlocksClear := by decide +kernel
  have distinct := (redeclaring.field_slots_distinct_iff rfl settled ordered).mpr clear
  exact ⟨settled, ordered, clear, by decide +kernel, distinct ⟨5⟩ (by decide +kernel)⟩

/-- Three classes with the inherited layout: the second redeclares the first field of two,
and the third adds one. -/
def crowded : Run where
  config := { fieldLayout := .inherited }
  operations := [
    .declare "A" (.classType none), .define .global ⟨0⟩,
    .declare "x" (.field none), .define ⟨2⟩ ⟨1⟩,
    .declare "y" (.field none), .define ⟨2⟩ ⟨2⟩,
    .declare "B" (.classType (some "A")), .define .global ⟨3⟩,
    .declare "x" (.field none), .define ⟨3⟩ ⟨4⟩,
    .declare "C" (.classType (some "B")), .define .global ⟨5⟩,
    .declare "z" (.field none), .define ⟨4⟩ ⟨6⟩]
  accepted := by decide +kernel

/-- The field of the third class has the slot of the one that the second redeclared. -/
theorem field_slots_collide : crowded.config.fieldLayout = .inherited ∧
    crowded.Settled .field ∧ crowded.SuperclassFirst .field ∧
      crowded.final.Lineage ⟨5⟩ [⟨5⟩, ⟨3⟩, ⟨0⟩] ∧
      crowded.final.fields ⟨5⟩ = .ok [⟨4⟩, ⟨2⟩, ⟨6⟩] ∧
      crowded.final.slot? ⟨4⟩ = .ok (some 2) ∧ crowded.final.slot? ⟨6⟩ = .ok (some 2) ∧
      ¬ crowded.final.DistinctSlots [⟨4⟩, ⟨2⟩, ⟨6⟩] := by
  refine ⟨rfl, ?_, ?_, ?_, ?_, ?_, ?_, ?_⟩ <;> decide +kernel

end Run

end Scoping
