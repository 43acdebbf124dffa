import Scoping.Proofs.Chain
import Scoping.Proofs.SlotOrigins

/-!
# Slots in sequence

A struct or class has a counter for the slots of its fields and another one for its methods.
Each is set when the first member of its kind gets a new slot, and moved on by one with each
further new slot, and by nothing else: not by members of other classes, not by methods that
override, and not by definitions that are refused. So new slots follow one another without
a gap, from where the first one was put.
-/

namespace Scoping

namespace Table

variable {t u w : Table} {D f x : SymbolId} {n : Name} {b slot : Nat}

/-- `b` is where the fields of `D` start: at 0, or with the inherited layout behind as many
fields as are visible through the superclass. -/
structure FieldsFrom (t : Table) (D : SymbolId) (b : Nat) : Prop where
  perClass : t.config.fieldLayout = .perClass → b = 0
  inherited : t.config.fieldLayout = .inherited →
    (t.superclass D = .ok none ∧ b = 0) ∨
      ∃ P, t.superclass D = .ok (some P) ∧ t.fieldCount P = .ok b

theorem fieldsFrom_of_fieldBase (base : t.fieldBase D = .ok b) : t.FieldsFrom D b := by
  obtain ⟨r, above, base⟩ := Answer.bind_eq_ok_iff.mp base
  constructor
  case perClass =>
    intro layout
    rw [layout] at base
    cases r <;> exact (Except.ok.inj base).symm
  case inherited =>
    intro layout
    rw [layout] at base
    cases r with
    | none => exact .inl ⟨above, (Except.ok.inj base).symm⟩
    | some P => exact .inr ⟨P, above, base⟩

/-- The fields of `D` have the slots from `b` on, and the counter is behind the last one. -/
structure FieldsInSequence (t : Table) (D : SymbolId) (b : Nat) : Prop where
  slot : ∀ j f, (t.own .field D)[j]? = some f → t.slotAt f = some (b + j)
  next : t.nextAt .field D = some (b + (t.own .field D).length)

theorem FieldsInSequence.congr (sequence : t.FieldsInSequence D b)
    (still : Undisturbed .field t u D) : u.FieldsInSequence D b := by
  constructor
  case slot =>
    intro j f nth
    rw [still.own] at nth
    rw [still.slots f (List.mem_of_getElem? nth), sequence.slot j f nth]
  case next => rw [still.own, still.next, sequence.next]

/-- The slot for a new field is the one that the counter tells, and the counter moves on. -/
theorem FieldsInSequence.joins (joins : Joins t w u .field D x n slot)
    (before : ∀ j f, (t.own .field D)[j]? = some f → t.slotAt f = some (b + j))
    (due : slot = b + (t.own .field D).length) : u.FieldsInSequence D b := by
  constructor
  case slot =>
    intro j f nth
    rw [joins.own_here] at nth
    by_cases earlier : j < (t.own .field D).length
    · rw [List.getElem?_append_left earlier] at nth
      rw [joins.slot_of_mem (List.mem_of_getElem? nth), before j f nth]
    · have last : j = (t.own .field D).length := by
        have short := (List.getElem?_eq_some_iff.mp nth).1
        rw [List.length_append, List.length_singleton] at short
        omega
      subst last
      rw [List.getElem?_concat_length, Option.some.injEq] at nth
      rw [← nth, joins.slots, if_pos rfl, due]
  case next =>
    rcases joins.due with ⟨method, _⟩ | ⟨_, _, next⟩
    · cases method
    · rw [next, if_pos ⟨rfl, rfl⟩, joins.own_here, List.length_append, List.length_singleton, due,
        Nat.add_assoc]

/-- The first field is put where the fields start, the others where the counter is. -/
theorem Joins.field_due (joins : Joins t w u .field D x n slot) :
    (∀ v, t.nextAt .field D = some v → slot = v) ∧
      (t.nextAt .field D = none → u.FieldsFrom D slot) := by
  obtain ⟨a, symbol, _⟩ := IsAggregate.of_mem (mem_own.mp joins.mem_own_here).1
  have given : w.HasSymbol D := joins.same.alike.hasSymbol_iff.mpr (hasSymbol_iff.mpr ⟨a, symbol⟩)
  rcases joins.due with ⟨method, _⟩ | ⟨_, due, _⟩
  · cases method
  · rw [nextSlot_eq (.inl rfl) given, joins.nextBefore] at due
    constructor
    · intro v set
      rw [set] at due
      exact (Except.ok.inj due).symm
    · intro unset
      rw [unset, slotBase, fieldBase, joins.same.aspect.superclass_eq, joins.same.fieldCount_eq,
        joins.configBefore, ← joins.grows.config] at due
      exact fieldsFrom_of_fieldBase due

end Table

namespace Run

open Table

variable {r : Run} {i j k : Nat} {D x y : SymbolId}

/-! ### Fields -/

/-- If `D` has fields, then the first of them was defined by some operation, and the fields
follow one another from where they were to start then. -/
theorem fields_in_sequence (r : Run) (D : SymbolId) (i : Nat) {f : SymbolId}
    (first : ((r.state i).own .field D).head? = some f) :
    ∃ o b, o < i ∧ r.Defines o .field D f ∧ (r.state (o + 1)).FieldsFrom D b ∧
      (r.state i).FieldsInSequence D b := by
  refine class_induction D (P := fun i t => ∀ f, (t.own .field D).head? = some f →
    ∃ o b, o < i ∧ r.Defines o .field D f ∧ (r.state (o + 1)).FieldsFrom D b ∧
      t.FieldsInSequence D b) (.inl rfl) ?_ ?_ ?_ i f first
  -- the class has no fields yet, an operation leaves them alone, or one defines a further one
  · intro t empty _ f first
    rw [empty] at first
    cases first
  · intro i still earlier f first
    rw [still.own] at first
    obtain ⟨o, b, before, defines, start, sequence⟩ := earlier f first
    exact ⟨o, b, Nat.lt_succ_of_lt before, defines, start, sequence.congr still⟩
  · intro i x w n slot defines joins earlier f first
    rw [joins.own_here] at first
    obtain ⟨counted, unset⟩ := joins.field_due
    cases fields : (r.state i).own .field D with
    | nil =>
      rw [fields] at first
      cases first
      refine ⟨i, slot, Nat.lt_succ_self i, defines, unset (next_of_own_nil (.inl rfl) fields), ?_⟩
      refine .joins joins ?_ ?_
      · intro j g nth
        simp [fields] at nth
      · rw [fields, List.length_nil, Nat.add_zero]
    | cons g rest =>
      rw [fields] at first
      cases first
      obtain ⟨o, b, before, defines', start, sequence⟩ := earlier f (by rw [fields]; rfl)
      exact ⟨o, b, Nat.lt_succ_of_lt before, defines', start,
        .joins joins sequence.slot (counted _ sequence.next)⟩

/-! ### Methods -/

/-- A method that overrides has the slot of the other at once. -/
theorem Overrides.slot? (overrides : r.Overrides i D x y) :
    ∃ v, (r.state (i + 1)).slot? x = .ok (some v) ∧ (r.state (i + 1)).slot? y = .ok (some v) := by
  obtain ⟨n, v, inherits, slotted, _⟩ := overrides.inherits
  obtain ⟨E, member⟩ := inherits.member
  have consistent := r.consistent (i + 1)
  have there := (mem_own.mp member).1
  have here := overrides.1.mem_contents
  refine ⟨v, ?_, ?_⟩
  · rw [slot?_eq (consistent.hasSymbol_of_mem here), slotted]
  · rw [slot?_eq (consistent.hasSymbol_of_mem ((r.grows_succ i).contents there)),
      slotAt_stays there (Nat.le_succ i), inherits.slot]

theorem opens_iff : r.Opens i D x ↔ r.Defines i .method D x ∧ r.overrides? i D x = none := by
  rw [Opens, Option.eq_none_iff_forall_ne_some]
  refine and_congr_right fun defines => forall_congr' fun y => not_congr ?_
  rw [overrides_iff]
  exact and_iff_right defines

theorem openedBefore_of_none (le : i ≤ j) (none : ∀ o, i ≤ o → o < j → ¬ r.Opening D o) :
    r.openedBefore D j = r.openedBefore D i := by
  induction le with
  | refl => rfl
  | @step j le ih =>
    rw [← ih fun o from' before => none o from' (Nat.lt_succ_of_lt before)]
    exact Nat.count_succ_eq_count_iff.mpr (none j le (Nat.lt_succ_self j))

/-- A new slot has the number behind that of the last new one before. -/
theorem Opens.follows (former : r.Opens i D x) (latter : r.Opens j D y) (before : i < j)
    (none : ∀ o, i < o → o < j → ¬ r.Opening D o) :
    ∃ v, (r.state (i + 1)).slotAt x = some v ∧ (r.state (j + 1)).slotAt y = some (v + 1) := by
  obtain ⟨b, first⟩ := exists_firstSlot ⟨x, former⟩
  have one : r.openedBefore D (i + 1) = r.openedBefore D i + 1 :=
    Nat.count_succ_eq_succ_count_iff.mpr ⟨x, former⟩
  have same := openedBefore_of_none before none
  refine ⟨_, former.slotAt first, ?_⟩
  rw [latter.slotAt first, same, one, Nat.add_assoc]

/-- In every state of a run the fields that a struct or class defines have slots that follow
one another, from where they started when the first one was defined. A method that is
defined there takes over the slot of a method that it overrides, or it opens one, and then
the slot, now and later, is by one more than the last that was opened there before. -/
theorem slots_in_sequence (r : Run) (D : SymbolId) :
    (∀ i, (r.state i).IsAggregate D → ∃ fs, (r.state i).definedFields D = .ok fs ∧
      ∀ f, fs.head? = some f → ∃ o b, o < i ∧ r.Defines o .field D f ∧
        (r.state (o + 1)).FieldsFrom D b ∧
        ∀ j g, fs[j]? = some g → (r.state i).slot? g = .ok (some (b + j))) ∧
    (∀ i x, r.Defines i .method D x → r.Opens i D x ∨ ∃ y v, r.Overrides i D x y ∧
      (r.state (i + 1)).slot? x = .ok (some v) ∧ (r.state (i + 1)).slot? y = .ok (some v)) ∧
    ∀ i j x y, i < j → r.Opens i D x → r.Opens j D y →
      (∀ o, i < o → o < j → ¬ r.Opening D o) →
        ∀ k, j < k → ∃ v, (r.state k).slot? x = .ok (some v) ∧
          (r.state k).slot? y = .ok (some (v + 1)) := by
  refine ⟨fun i aggregate => ?_, fun i x defines => ?_, ?_⟩
  · have consistent := r.consistent i
    refine ⟨_, consistent.definedMembers aggregate .field, fun f first => ?_⟩
    obtain ⟨o, b, before, defines, start, sequence⟩ := r.fields_in_sequence D i first
    refine ⟨o, b, before, defines, start, fun j g nth => ?_⟩
    have member := List.mem_of_getElem? nth
    rw [slot?_eq (consistent.hasSymbol_of_mem_own member), sequence.slot j g nth]
  · by_cases opens : r.Opens i D x
    · exact .inl opens
    · obtain ⟨y, overrides⟩ : ∃ y, r.Overrides i D x y := by
        by_contra none
        exact opens ⟨defines, fun y overrides => none ⟨y, overrides⟩⟩
      obtain ⟨v, here, there⟩ := overrides.slot?
      exact .inr ⟨y, v, overrides, here, there⟩
  · intro i j x y before former latter none k later
    obtain ⟨v, here, there⟩ := former.follows latter before none
    have inside := former.1.mem_contents
    have inside' := latter.1.mem_contents
    have consistent := r.consistent k
    have lasts : i + 1 ≤ k := Nat.le_of_lt (Nat.lt_of_le_of_lt before later)
    refine ⟨v, ?_, ?_⟩
    · rw [slot?_eq (consistent.hasSymbol_of_mem ((r.grows lasts).contents inside)),
        slotAt_stays inside lasts, here]
    · rw [slot?_eq (consistent.hasSymbol_of_mem ((r.grows later).contents inside')),
        slotAt_stays inside' later, there]

/-- A class and a subclass with the inherited layout, defined into by turns. One field of the
subclass is refused, and one of its methods overrides. -/
def intertwined : Run where
  config := { fieldLayout := .inherited }
  operations := [
    .declare "A" (.classType none), .define .global ⟨0⟩,
    .declare "x" (.field none), .define ⟨2⟩ ⟨1⟩,
    .declare "m" (.method none), .define ⟨2⟩ ⟨2⟩,
    .declare "B" (.classType (some "A")), .define .global ⟨3⟩,
    .declare "y" (.field none), .define ⟨4⟩ ⟨4⟩,
    .declare "n" (.method none), .define ⟨4⟩ ⟨5⟩,
    .declare "y" (.field none), .define ⟨4⟩ ⟨6⟩,
    .declare "w" (.field none), .define ⟨2⟩ ⟨7⟩,
    .declare "m" (.method none), .define ⟨4⟩ ⟨8⟩,
    .declare "z" (.field none), .define ⟨4⟩ ⟨9⟩,
    .declare "k" (.method none), .define ⟨4⟩ ⟨10⟩]
  accepted := by decide +kernel

/-- The fields of the subclass have the slots 1 and 2, and its methods that open a slot too;
the one that overrides, between them, has the slot 0. -/
theorem slots_in_sequence_intertwined : intertwined.final.IsAggregate ⟨3⟩ ∧
    intertwined.final.slot? ⟨4⟩ = .ok (some 1) ∧ intertwined.final.slot? ⟨9⟩ = .ok (some 2) ∧
    intertwined.Opens 11 ⟨3⟩ ⟨5⟩ ∧ intertwined.Opens 21 ⟨3⟩ ⟨10⟩ ∧
    intertwined.final.slot? ⟨5⟩ = .ok (some 1) ∧ intertwined.final.slot? ⟨10⟩ = .ok (some 2) ∧
    ∃ y, intertwined.Overrides 17 ⟨3⟩ ⟨8⟩ y := by
  obtain ⟨fields, methods, further⟩ := intertwined.slots_in_sequence ⟨3⟩
  have aggregate : intertwined.final.IsAggregate ⟨3⟩ := by decide +kernel
  have known : intertwined.final.definedFields ⟨3⟩ = .ok [⟨4⟩, ⟨9⟩] := by decide +kernel
  have one : intertwined.final.slot? ⟨4⟩ = .ok (some 1) := by decide +kernel
  have two : intertwined.final.slot? ⟨5⟩ = .ok (some 1) := by decide +kernel
  have former : intertwined.Opens 11 ⟨3⟩ ⟨5⟩ :=
    opens_iff.mpr ⟨defines_iff.mpr (by decide +kernel), by decide +kernel⟩
  have latter : intertwined.Opens 21 ⟨3⟩ ⟨10⟩ :=
    opens_iff.mpr ⟨defines_iff.mpr (by decide +kernel), by decide +kernel⟩
  have between : ∀ o < 21, 11 < o → ¬ intertwined.Opening ⟨3⟩ o := by decide +kernel
  refine ⟨aggregate, one, ?_, former, latter, two, ?_, ?_⟩
  · obtain ⟨fs, listed, sequence⟩ := fields _ aggregate
    cases Except.ok.inj (known.symm.trans listed)
    obtain ⟨_, b, _, _, _, slots⟩ := sequence ⟨4⟩ rfl
    have first := slots 0 ⟨4⟩ rfl
    cases Except.ok.inj (one.symm.trans first)
    exact slots 1 ⟨9⟩ rfl
  · obtain ⟨v, here, there⟩ := further 11 21 ⟨5⟩ ⟨10⟩ (by decide) former latter
      (fun o behind before => between o before behind) 22 (by decide)
    cases Except.ok.inj (two.symm.trans here)
    exact there
  · have defines : intertwined.Defines 17 .method ⟨3⟩ ⟨8⟩ := defines_iff.mpr (by decide +kernel)
    rcases methods 17 ⟨8⟩ defines with opens | ⟨y, _, overrides, _⟩
    · have closed : ¬ intertwined.Opening ⟨3⟩ 17 := by decide +kernel
      exact absurd ⟨⟨8⟩, opens⟩ closed
    · exact ⟨y, overrides⟩

end Run

end Scoping
