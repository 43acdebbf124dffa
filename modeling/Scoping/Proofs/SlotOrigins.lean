import Mathlib.Data.Nat.Count
import Scoping.Proofs.SameShape
import Scoping.Proofs.Timeline

/-!
# Where slots come from

A method that is defined in a class overrides one that is visible through the superclass,
and has its slot, or else opens a slot of the class. So every slot was opened once, by a
method of the same name. A class opens its slots one after the other, and the first one is
behind all those that are visible through the superclass at that time. What the classes
above open later is not seen, and can come to the same number.
-/

namespace Scoping

namespace Table

variable {t u w : Table} {k : Kind} {D E P m x y : SymbolId} {n : Name} {slot : Nat}

/-- The method that a method of a class overrides: the one of its name that is visible
through the superclass. -/
def inherited? (t : Table) (E x : SymbolId) : Answer (Option SymbolId) := do
  match ← t.superclass E with
  | none => return none
  | some above => t.methodNamed above (← t.name x)

theorem overriddenSlot?_eq (named : t.name x = .ok n) :
    t.overriddenSlot? E n = t.inherited? E x >>= (Option.elim · (.ok none) t.slot?) := by
  rw [overriddenSlot?, inherited?]
  cases t.superclass E with
  | error e => rfl
  | ok above =>
    cases above with
    | none => rfl
    | some P =>
      simp only [Answer.ok_bind, named]
      cases t.methodNamed P n with
      | error e => rfl
      | ok o => cases o <;> rfl

theorem SameShape.inherited?_eq (same : SameShape t u) : t.inherited? = u.inherited? := by
  funext E x
  rw [inherited?, inherited?, same.aspect.superclass_eq, same.aspect.name_eq,
    same.aspect.methodNamed_eq]

theorem Consistent.mem_own_of_inherited? (consistent : t.Consistent) (named : t.name x = .ok n)
    (found : t.inherited? E x = .ok (some y)) : ∃ D, y ∈ t.own .method D ∧ t.nameAt y = some n := by
  obtain ⟨above, known, found⟩ := Answer.bind_eq_ok_iff.mp found
  cases above with
  | none => cases found
  | some P =>
    simp only [named, Answer.ok_bind] at found
    exact consistent.mem_own_of_methodNamed (consistent.isAggregate_superclass known) found

/-- What is a member in between, other than the one that joined, was one before. -/
theorem Joins.mem_own_between (joins : Joins t w u k E x n slot) (other : y ≠ x)
    (member : y ∈ w.own .method D) : y ∈ t.own .method D := by
  obtain ⟨inside, kind⟩ := mem_own.mp member
  rw [joins.kinds_between] at kind
  refine mem_own.mpr ⟨?_, kind⟩
  rw [← joins.same.contents_eq] at inside
  by_cases here : D = E
  · subst here
    rw [joins.here] at inside
    exact (List.mem_append.mp inside).resolve_right fun last => other (List.mem_singleton.mp last)
  · rwa [joins.elsewhere D here] at inside

end Table

namespace Run

open Table

variable {r : Run} {i j : Nat} {k : Kind} {C D E m x y : SymbolId} {n : Name} {v : Nat}

/-! ### Slots over a run -/

/-- Only members have slots. -/
theorem mem_contents_of_slotAt (taken : (r.state i).slotAt x = some v) :
    ∃ D, x ∈ (r.state i).contents D := by
  induction i with
  | zero =>
    rw [state_zero, slotAt] at taken
    simp [Table.new] at taken
  | succ i ih =>
    rcases r.calm_or_defines i with calm | ⟨k, E, y, slotted, defines⟩
    · rw [calm.slot] at taken
      obtain ⟨D, member⟩ := ih taken
      exact ⟨D, calm.contents member⟩
    · obtain ⟨w, n, slot, joins⟩ := defines.joins slotted
      rw [joins.slots] at taken
      split at taken
      · rename_i same
        subst same
        exact ⟨E, (mem_own.mp joins.mem_own_here).1⟩
      · obtain ⟨D, member⟩ := ih taken
        exact ⟨D, joins.grows.contents member⟩

/-- Every field and method in a struct or class has a slot. -/
theorem exists_slotAt (slotted : k.Slotted) (member : m ∈ (r.state i).own k D) :
    ∃ v, (r.state i).slotAt m = some v := by
  refine class_induction D (P := fun _ t => ∀ m ∈ t.own k D, ∃ v, t.slotAt m = some v)
    slotted ?_ ?_ ?_ i m member
  · intro t empty _ m member
    simp [empty] at member
  · intro i still given m member
    rw [still.own] at member
    rw [still.slots m member]
    exact given m member
  · intro i x w n slot _ joins given m member
    rw [joins.own_here] at member
    rcases List.mem_append.mp member with before | last
    · rw [joins.slot_of_mem before]
      exact given m before
    · rw [List.mem_singleton.mp last, joins.slots, if_pos rfl]
      exact ⟨slot, rfl⟩

/-- The slot of a member never changes. -/
theorem slotAt_stays (member : m ∈ (r.state i).contents D) (later : i ≤ j) :
    (r.state j).slotAt m = (r.state i).slotAt m := by
  induction later with
  | refl => rfl
  | @step j later ih =>
    have still := (r.grows later).contents member
    rcases r.calm_or_defines j with calm | ⟨k, E, x, slotted, defines⟩
    · rw [calm.slot, ih]
    · obtain ⟨w, n, slot, joins⟩ := defines.joins slotted
      have apart : x ≠ m := by
        rintro rfl
        exact joins.undefined D still
      rw [joins.slots, if_neg apart, ih]

/-! ### Methods that override and methods that open a slot -/

/-- Operation `i` defines the method `x` in `E`, and there it overrides `y`. When superclasses
go round in a circle a method can meet itself, and that is no override. -/
def Overrides (r : Run) (i : Nat) (E x y : SymbolId) : Prop :=
  r.Defines i .method E x ∧ (r.state (i + 1)).inherited? E x = .ok (some y) ∧ y ≠ x

/-- Operation `i` defines the method `x` in `E`, and it overrides none. -/
def Opens (r : Run) (i : Nat) (E x : SymbolId) : Prop :=
  r.Defines i .method E x ∧ ∀ y, ¬ r.Overrides i E x y

/-- A method that overrides has the slot of the other, and moves no counter. -/
structure Inherits (r : Run) (i : Nat) (E x : SymbolId) (n : Name) (slot : Nat) (y : SymbolId) :
    Prop where
  overrides : r.Overrides i E x y
  member : ∃ D, y ∈ (r.state i).own .method D
  name : (r.state i).nameAt y = some n
  slot : (r.state i).slotAt y = some slot
  next : ∀ D, (r.state (i + 1)).nextAt .method D = (r.state i).nextAt .method D

/-- What is still to join has no slot. -/
theorem slotAt_eq_none {t w : Table} {slot : Nat} (joins : Joins (r.state i) w t k E x n slot) :
    (r.state i).slotAt x = none := by
  cases taken : (r.state i).slotAt x with
  | none => rfl
  | some v =>
    obtain ⟨D, member⟩ := mem_contents_of_slotAt taken
    exact absurd member (joins.undefined D)

/-- What a method is found to override was a method of that name before. -/
theorem before_of_inherited? {t w : Table} {slot : Nat}
    (joins : Joins (r.state i) w t k E x n slot) (named : w.name x = .ok n)
    (inherited : w.inherited? E x = .ok (some y)) :
    w.slot? y = .ok ((r.state i).slotAt y) ∧
      (y ≠ x → ∃ D, y ∈ (r.state i).own .method D ∧ (r.state i).nameAt y = some n) := by
  obtain ⟨D, member, named'⟩ := joins.consistent.mem_own_of_inherited? named inherited
  constructor
  · rw [slot?_eq (joins.consistent.hasSymbol_of_mem_own member), joins.slotBefore]
  · intro other
    exact ⟨D, joins.mem_own_between other member, joins.names_between y ▸ named'⟩

/-- A method overrides, or it opens the slot that is next. -/
theorem opens_or_inherits {w : Table} {slot : Nat} (defines : r.Defines i .method E x)
    (joins : Joins (r.state i) w (r.state (i + 1)) .method E x n slot) :
    (∃ y, r.Inherits i E x n slot y) ∨
      r.Opens i E x ∧ w.nextSlot .method E = .ok slot ∧ ∀ D, (r.state (i + 1)).nextAt .method D =
        if D = E then some (slot + 1) else (r.state i).nextAt .method D := by
  have named : w.name x = .ok n := by
    rw [name_eq_ok_iff, joins.names_between, joins.name]
  rcases joins.due with ⟨_, taken, next⟩ | ⟨free, due, next⟩
  · left
    rw [overriddenSlot?_eq named] at taken
    obtain ⟨o, inherited, taken⟩ := Answer.bind_eq_ok_iff.mp taken
    cases o with
    | none => cases taken
    | some y =>
      obtain ⟨known, before⟩ := before_of_inherited? joins named inherited
      have slotted : (r.state i).slotAt y = some slot := Except.ok.inj (known.symm.trans taken)
      have other : y ≠ x := by
        rintro rfl
        rw [slotAt_eq_none joins] at slotted
        cases slotted
      obtain ⟨D, member, named'⟩ := before other
      rw [joins.same.inherited?_eq] at inherited
      exact ⟨y, ⟨defines, inherited, other⟩, ⟨D, member⟩, named', slotted, next .method⟩
  · right
    refine ⟨⟨defines, ?_⟩, due, fun D => ?_⟩
    · rintro y ⟨_, inherited, other⟩
      rw [← joins.same.inherited?_eq] at inherited
      obtain ⟨known, before⟩ := before_of_inherited? joins named inherited
      obtain ⟨D, member, _⟩ := before other
      obtain ⟨v, slotted⟩ := exists_slotAt (.inr rfl) member
      have none := free rfl
      rw [overriddenSlot?_eq named, inherited, Answer.ok_bind] at none
      rw [slotted] at known
      cases known.symm.trans none
    · rw [next]
      simp

theorem Defines.unique (first : r.Defines i k D x) (second : r.Defines i k E y) :
    D = E ∧ x = y := by
  have same := (defines_iff.mp first).symm.trans (defines_iff.mp second)
  exact Prod.mk.inj (Option.some.inj same)

/-- What overrides has the slot and the name of the other, and the other was there before. -/
theorem Overrides.inherits (overrides : r.Overrides i E x y) :
    ∃ n slot, r.Inherits i E x n slot y ∧ (r.state (i + 1)).slotAt x = some slot ∧
      (r.state (i + 1)).nameAt x = some n := by
  obtain ⟨defines, inherited, other⟩ := id overrides
  obtain ⟨w, n, slot, joins⟩ := defines.joins (.inr rfl)
  have slotted := (joins.slots x).trans (if_pos rfl)
  have named := (joins.names x).trans joins.name
  rcases opens_or_inherits defines joins with ⟨z, inherits⟩ | ⟨opens, _⟩
  · have same := inherits.overrides.2.1.symm.trans inherited
    cases same
    exact ⟨n, slot, inherits, slotted, named⟩
  · exact absurd overrides (opens.2 y)

/-! ### Slots of a class in the order in which they are opened -/

/-- Operation `i` opens a slot of `E`. -/
def Opening (r : Run) (E : SymbolId) (i : Nat) : Prop := ∃ x, r.Opens i E x

/-- What the method that operation `i` defines overrides. -/
def overrides? (r : Run) (i : Nat) (E x : SymbolId) : Option SymbolId :=
  match (r.state (i + 1)).inherited? E x with
  | .ok (some y) => if y = x then none else some y
  | _ => none

theorem overrides_iff :
    r.Overrides i E x y ↔ r.Defines i .method E x ∧ r.overrides? i E x = some y := by
  rw [Overrides, overrides?]
  split
  · rename_i z inherited
    rw [inherited]
    by_cases same : z = x
    · simp [same, eq_comm]
    · simp only [if_neg same, Except.ok.injEq, Option.some.injEq]
      constructor
      · rintro ⟨defines, rfl, _⟩
        exact ⟨defines, rfl⟩
      · rintro ⟨defines, rfl⟩
        exact ⟨defines, rfl, same⟩
  · rename_i other
    constructor
    · rintro ⟨_, inherited, _⟩
      exact absurd inherited (other y)
    · rintro ⟨_, none⟩
      cases none

instance decidableOpening (r : Run) (E : SymbolId) : DecidablePred (r.Opening E) := fun i =>
  decidable_of_iff (∃ p ∈ r.definedBy .method i, p.1 = E ∧ r.overrides? i E p.2 = none) <| by
    constructor
    · rintro ⟨⟨D, x⟩, found, rfl, none⟩
      refine ⟨x, defines_iff.mpr found, fun y overrides => ?_⟩
      cases none.symm.trans (overrides_iff.mp overrides).2
    · rintro ⟨x, defines, free⟩
      refine ⟨(E, x), defines_iff.mp defines, rfl, ?_⟩
      rw [Option.eq_none_iff_forall_ne_some]
      exact fun y found => free y (overrides_iff.mpr ⟨defines, found⟩)

/-- How many slots `E` had opened before operation `i`. -/
def openedBefore (r : Run) (E : SymbolId) (i : Nat) : Nat := Nat.count (r.Opening E) i

/-- The first slot that `E` opened is `b`. -/
def FirstSlot (r : Run) (E : SymbolId) (b : Nat) : Prop :=
  ∃ i x, r.Opens i E x ∧ r.openedBefore E i = 0 ∧ (r.state (i + 1)).slot? x = .ok (some b)

/-- The counter of a class is behind the slots that it opened. -/
structure Counted (r : Run) (E : SymbolId) (i : Nat) (t : Table) : Prop where
  unset : r.openedBefore E i = 0 → t.nextAt .method E = none
  set : ∀ b, r.FirstSlot E b → r.openedBefore E i ≠ 0 →
    t.nextAt .method E = some (b + r.openedBefore E i)

/-- The slot that is opened comes after the first one by the number of those between. -/
theorem Opens.slot {w : Table} {b slot : Nat} (opens : r.Opens i E x)
    (joins : Joins (r.state i) w (r.state (i + 1)) .method E x n slot)
    (due : w.nextSlot .method E = .ok slot) (counted : r.Counted E i (r.state i))
    (first : r.FirstSlot E b) : slot = b + r.openedBefore E i := by
  by_cases none : r.openedBefore E i = 0
  · obtain ⟨j, y, opens', none', slotted⟩ := first
    have same : i = j := Nat.count_injective ⟨x, opens⟩ ⟨y, opens'⟩ (none.trans none'.symm)
    subst same
    obtain ⟨_, rfl⟩ := opens.1.unique opens'.1
    have given := (r.consistent (i + 1)).hasSymbol_of_mem_own joins.mem_own_here
    rw [slot?_eq given, joins.slots, if_pos rfl, Except.ok.injEq, Option.some.injEq] at slotted
    rw [none, slotted, Nat.add_zero]
  · obtain ⟨a, symbol, _⟩ := IsAggregate.of_mem (mem_own.mp joins.mem_own_here).1
    have given : w.HasSymbol E := joins.same.alike.hasSymbol_iff.mpr (hasSymbol_iff.mpr ⟨a, symbol⟩)
    rw [nextSlot_eq (.inr rfl) given, joins.nextBefore, counted.set b first none] at due
    exact (Except.ok.inj due).symm

theorem counted (r : Run) (E : SymbolId) (i : Nat) : r.Counted E i (r.state i) := by
  refine class_induction E (P := r.Counted E) (.inr rfl) ?_ ?_ ?_ i
  · intro t _ unset
    exact ⟨fun _ => unset, fun b _ some => absurd (Nat.count_zero _) some⟩
  · intro i still counted
    have closed : ¬ r.Opening E i := by
      rintro ⟨x, defines, _⟩
      obtain ⟨w, n, slot, joins⟩ := defines.joins (.inr rfl)
      have more := joins.own_here.symm.trans still.own
      simp at more
    have same : r.openedBefore E (i + 1) = r.openedBefore E i :=
      Nat.count_succ_eq_count_iff.mpr closed
    constructor
    · rw [same, still.next]
      exact counted.unset
    · rw [same, still.next]
      exact counted.set
  · intro i x w n slot defines joins counted
    rcases opens_or_inherits defines joins with ⟨y, inherits⟩ | ⟨opens, due, next⟩
    · have closed : ¬ r.Opening E i := by
        rintro ⟨z, opens⟩
        obtain ⟨_, rfl⟩ := opens.1.unique defines
        exact opens.2 y inherits.overrides
      have same : r.openedBefore E (i + 1) = r.openedBefore E i :=
        Nat.count_succ_eq_count_iff.mpr closed
      constructor
      · rw [same, inherits.next]
        exact counted.unset
      · rw [same, inherits.next]
        exact counted.set
    · have more : r.openedBefore E (i + 1) = r.openedBefore E i + 1 :=
        Nat.count_succ_eq_succ_count_iff.mpr ⟨x, opens⟩
      constructor
      · intro none
        omega
      · intro b first _
        rw [next, if_pos rfl, more, opens.slot joins due counted first, Nat.add_assoc]

/-- A class that opens a slot has a first one. -/
theorem exists_firstSlot (opening : r.Opening E i) : ∃ b, r.FirstSlot E b := by
  induction i using Nat.strongRecOn with
  | ind i ih =>
    by_cases none : r.openedBefore E i = 0
    · obtain ⟨x, opens⟩ := opening
      obtain ⟨w, n, slot, joins⟩ := opens.1.joins (.inr rfl)
      have given := (r.consistent (i + 1)).hasSymbol_of_mem_own joins.mem_own_here
      refine ⟨slot, i, x, opens, none, ?_⟩
      rw [slot?_eq given, joins.slots, if_pos rfl]
    · obtain ⟨j, before, earlier⟩ := Nat.count_ne_iff_exists.mp none
      exact ih j before earlier

theorem Opens.slotAt (opens : r.Opens i E x) (first : r.FirstSlot E v) :
    (r.state (i + 1)).slotAt x = some (v + r.openedBefore E i) := by
  obtain ⟨w, n, slot, joins⟩ := opens.1.joins (.inr rfl)
  rcases opens_or_inherits opens.1 joins with ⟨y, inherits⟩ | ⟨_, due, _⟩
  · exact absurd inherits.overrides (opens.2 y)
  · rw [joins.slots, if_pos rfl, opens.slot joins due (r.counted E i) first]

/-! ### The origin of a slot -/

/-- The slot of `x` is the one that operation `i` opened, in the class `E`. -/
inductive Origin (r : Run) (E : SymbolId) (i : Nat) : SymbolId → Prop
  | opens {x : SymbolId} : r.Opens i E x → Origin r E i x
  | overrides {j : Nat} {D x y : SymbolId} :
      r.Overrides j D x y → Origin r E i y → Origin r E i x

theorem Defines.mem_contents (defines : r.Defines i .method E x) :
    x ∈ (r.state (i + 1)).contents E := by
  obtain ⟨w, n, slot, joins⟩ := defines.joins (.inr rfl)
  exact (mem_own.mp joins.mem_own_here).1

/-- At the end a member has the slot and the name that it had before. -/
theorem final_of_mem (member : m ∈ (r.state i).contents D) (within : i ≤ r.operations.length) :
    r.final.slotAt m = (r.state i).slotAt m ∧ r.final.nameAt m = (r.state i).nameAt m :=
  ⟨slotAt_stays member within,
    (r.grows within).name ((r.consistent i).hasSymbol_of_mem member)⟩

theorem Overrides.final (overrides : r.Overrides i E x y) :
    r.final.slotAt x = r.final.slotAt y ∧ r.final.nameAt x = r.final.nameAt y := by
  obtain ⟨n, slot, inherits, slotted, named⟩ := overrides.inherits
  obtain ⟨D, member⟩ := inherits.member
  have within := overrides.1.lt
  have here := final_of_mem overrides.1.mem_contents within
  have there := final_of_mem (mem_own.mp member).1 (Nat.le_of_lt within)
  constructor
  · rw [here.1, there.1, slotted, inherits.slot]
  · rw [here.2, there.2, named, inherits.name]

theorem Origin.slotAt (origin : r.Origin E i m) (first : r.FirstSlot E v) :
    r.final.slotAt m = some (v + r.openedBefore E i) := by
  induction origin with
  | opens opens =>
    rw [(final_of_mem opens.1.mem_contents opens.1.lt).1]
    exact opens.slotAt first
  | overrides overrides _ ih => exact overrides.final.1.trans ih

/-- What has its slot from one operation has the name of one method. -/
theorem Origin.nameAt (origin : r.Origin E i m) :
    ∃ x, r.Opens i E x ∧ r.final.nameAt m = r.final.nameAt x := by
  induction origin with
  | opens opens => exact ⟨_, opens, rfl⟩
  | overrides overrides _ ih =>
    obtain ⟨x, opens, same⟩ := ih
    exact ⟨x, opens, overrides.final.2.trans same⟩

/-- The slot of every method was opened once. -/
theorem exists_origin (member : m ∈ (r.state i).own .method D) : ∃ E j, r.Origin E j m := by
  induction i using Nat.strongRecOn generalizing m D with
  | ind i ih =>
    obtain ⟨j, before, defines⟩ := defined_of_mem_own (.inr rfl) member
    obtain ⟨w, n, slot, joins⟩ := defines.joins (.inr rfl)
    rcases opens_or_inherits defines joins with ⟨y, inherits⟩ | ⟨opens, _⟩
    · obtain ⟨D', member'⟩ := inherits.member
      obtain ⟨E, k, origin⟩ := ih j before member'
      exact ⟨E, k, .overrides inherits.overrides origin⟩
    · exact ⟨D, j, .opens opens⟩

theorem Origin.opening (origin : r.Origin E i m) : r.Opening E i := by
  obtain ⟨x, opens, _⟩ := origin.nameAt
  exact ⟨x, opens⟩

/-- Two slots of one class are the same only if they come from one operation. -/
theorem Origin.nameAt_eq (origin : r.Origin E i x) (origin' : r.Origin E j y)
    (same : r.openedBefore E i = r.openedBefore E j) : r.final.nameAt x = r.final.nameAt y := by
  have once : i = j := Nat.count_injective origin.opening origin'.opening same
  subst once
  obtain ⟨z, opens, named⟩ := origin.nameAt
  obtain ⟨z', opens', named'⟩ := origin'.nameAt
  obtain ⟨_, rfl⟩ := opens.1.unique opens'.1
  rw [named, named']

/-! ### Slots that were seen -/

/-- When `E` opened its first slot, a method with the slot `v` was visible through the
superclass. -/
def Seen (r : Run) (E : SymbolId) (v : Nat) : Prop :=
  ∃ i x P ms m, r.Opens i E x ∧ r.openedBefore E i = 0 ∧
    (r.state (i + 1)).superclass E = .ok (some P) ∧ (r.state (i + 1)).methods P = .ok ms ∧
    m ∈ ms ∧ (r.state i).slot? m = .ok (some v)

/-- The first slot is behind those that were seen. -/
theorem Seen.lt {b : Nat} (seen : r.Seen E v) (first : r.FirstSlot E b) : v < b := by
  obtain ⟨i, x, P, ms, m, opens, none, above, shown, inside, slotted⟩ := seen
  obtain ⟨w, n, slot, joins⟩ := opens.1.joins (.inr rfl)
  rcases opens_or_inherits opens.1 joins with ⟨y, inherits⟩ | ⟨_, due, _⟩
  · exact absurd inherits.overrides (opens.2 y)
  · have counted := r.counted E i
    have place := opens.slot joins due counted first
    rw [none, Nat.add_zero] at place
    subst place
    have above' : w.superclass E = .ok (some P) := by rwa [joins.same.aspect.superclass_eq]
    have given : w.HasSymbol E := hasSymbol_of_superclassWithin above'
    rw [nextSlot_eq (.inr rfl) given, joins.nextBefore, counted.unset none] at due
    have shown' : w.methods P = .ok ms := by rwa [methods, joins.same.visibleMembers_eq]
    refine joins.consistent.lt_methodBase above' shown' inside ?_ due
    obtain ⟨a, symbol, _⟩ := Answer.bind_eq_ok_iff.mp slotted
    rw [slot?_eq (hasSymbol_iff.mpr ⟨a, symbol⟩), Except.ok.injEq] at slotted
    rw [joins.slotBefore, slotted]

/-- Two classes opened the slots of the two methods, without having seen the slot of the
other, and came to the same number. -/
def Clash (r : Run) (m m' : SymbolId) : Prop :=
  ∃ P Q i j b c, r.Origin P i m ∧ r.Origin Q j m' ∧ P ≠ Q ∧ r.FirstSlot P b ∧ r.FirstSlot Q c ∧
    ¬ r.Seen P (c + r.openedBefore Q j) ∧ ¬ r.Seen Q (b + r.openedBefore P i) ∧
    b + r.openedBefore P i = c + r.openedBefore Q j

theorem Clash.slotAt_eq (clash : r.Clash x y) : r.final.slotAt x = r.final.slotAt y := by
  obtain ⟨P, Q, i, j, b, c, origin, origin', _, first, first', _, _, same⟩ := clash
  rw [origin.slotAt first, origin'.slotAt first', same]

/-- Methods of different names that have the same slot clash. -/
theorem clash_of_slotAt_eq (here : x ∈ r.final.own .method D) (there : y ∈ r.final.own .method E)
    (other : r.final.nameAt x ≠ r.final.nameAt y)
    (same : r.final.slotAt x = r.final.slotAt y) : r.Clash x y := by
  obtain ⟨P, i, origin⟩ := exists_origin here
  obtain ⟨Q, j, origin'⟩ := exists_origin there
  obtain ⟨b, first⟩ := exists_firstSlot origin.opening
  obtain ⟨c, first'⟩ := exists_firstSlot origin'.opening
  have number : b + r.openedBefore P i = c + r.openedBefore Q j := by
    rw [origin.slotAt first, origin'.slotAt first'] at same
    exact Option.some.inj same
  have apart : P ≠ Q := by
    rintro rfl
    have once : b + r.openedBefore P i = c + r.openedBefore P i :=
      Option.some.inj ((origin.slotAt first).symm.trans (origin.slotAt first'))
    exact other (origin.nameAt_eq origin' (by omega))
  refine ⟨P, Q, i, j, b, c, origin, origin', apart, first, first', ?_, ?_, number⟩
  · intro seen
    have lt := seen.lt first
    omega
  · intro seen
    have lt := seen.lt first'
    omega

/-- The methods of a class have distinct slots just when no two of them clash. -/
theorem method_slots_distinct_iff (r : Run) (C : SymbolId) (given : r.final.HasSymbol C) :
    ∃ ms, r.final.methods C = .ok ms ∧
      (r.final.DistinctSlots ms ↔ ∀ m ∈ ms, ∀ m' ∈ ms, m ≠ m' → ¬ r.Clash m m') := by
  have consistent : r.final.Consistent := r.consistent _
  obtain ⟨l, chain, _⟩ := consistent.settles.chainVia given
  refine ⟨_, consistent.visibleMembers given chain .method, ?_⟩
  rw [consistent.distinctSlots_iff]
  constructor
  · intro distinct m inside m' inside' other clash
    exact other (distinct m inside m' inside' clash.slotAt_eq)
  · intro apart m inside m' inside' same
    by_contra other
    obtain ⟨D, _, member⟩ := exists_own_of_mem_layered inside
    obtain ⟨E, _, member'⟩ := exists_own_of_mem_layered inside'
    refine apart m inside m' inside' other (clash_of_slotAt_eq member member' ?_ same)
    intro named
    exact other (List.inj_on_of_nodup_map (names_layered .method l) inside inside' named)

/-- A class and a subclass, where the class gets one more method after the subclass has one. -/
def interleaved : Run where
  config := {}
  operations := [
    .declare "A" (.classType none), .define .global ⟨0⟩,
    .declare "m" (.method none), .define ⟨2⟩ ⟨1⟩,
    .declare "B" (.classType (some "A")), .define .global ⟨2⟩,
    .declare "n" (.method none), .define ⟨4⟩ ⟨3⟩,
    .declare "k" (.method none), .define ⟨2⟩ ⟨4⟩]
  accepted := by decide +kernel

theorem method_slots_distinct_interleaved :
    interleaved.final.HasSymbol ⟨0⟩ ∧ ¬ interleaved.Clash ⟨1⟩ ⟨4⟩ ∧
      interleaved.final.HasSymbol ⟨2⟩ ∧ ∃ m m', m ≠ m' ∧ interleaved.Clash m m' := by
  have above : interleaved.final.HasSymbol ⟨0⟩ := by decide +kernel
  have below : interleaved.final.HasSymbol ⟨2⟩ := by decide +kernel
  refine ⟨above, ?_, below, ?_⟩
  · obtain ⟨ms, shown, distinct⟩ := interleaved.method_slots_distinct_iff ⟨0⟩ above
    have known : interleaved.final.methods ⟨0⟩ = .ok [⟨1⟩, ⟨4⟩] := by decide +kernel
    cases Except.ok.inj (shown.symm.trans known)
    exact distinct.mp (by decide +kernel) ⟨1⟩ (by simp) ⟨4⟩ (by simp) (by decide)
  · obtain ⟨ms, shown, distinct⟩ := interleaved.method_slots_distinct_iff ⟨2⟩ below
    have known : interleaved.final.methods ⟨2⟩ = .ok [⟨1⟩, ⟨4⟩, ⟨3⟩] := by decide +kernel
    cases Except.ok.inj (shown.symm.trans known)
    have same : ¬ interleaved.final.DistinctSlots [⟨1⟩, ⟨4⟩, ⟨3⟩] := by decide +kernel
    rw [distinct] at same
    push Not at same
    obtain ⟨m, _, m', _, other, clash⟩ := same
    exact ⟨m, m', other, clash⟩

/-- The late method of the class has the slot of the method of the subclass. -/
theorem method_slots_collide : interleaved.Settled .method ∧
    interleaved.final.Lineage ⟨2⟩ [⟨2⟩, ⟨0⟩] ∧
      interleaved.final.methods ⟨2⟩ = .ok [⟨1⟩, ⟨4⟩, ⟨3⟩] ∧
      interleaved.final.slot? ⟨4⟩ = .ok (some 1) ∧
      interleaved.final.slot? ⟨3⟩ = .ok (some 1) ∧
      ¬ interleaved.final.DistinctSlots [⟨1⟩, ⟨4⟩, ⟨3⟩] := by
  refine ⟨?_, ?_, ?_, ?_, ?_, ?_⟩ <;> decide +kernel

end Run

end Scoping
