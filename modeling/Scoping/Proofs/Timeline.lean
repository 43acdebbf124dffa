import Scoping.Proofs.Run
import Scoping.Proofs.Undisturbed

/-!
# The members over a run

Every step of a run is calm, or one field or method joins a struct or class by it. So
the members of a class are those that the run defined in it, in this order.
-/

namespace Scoping

namespace Run

open Table

variable {r : Run} {i j : Nat} {k : Kind} {D m x : SymbolId}

/-- Operation `i` defines `x`, of kind `k`, in the body of the struct or class `D`. -/
def Defines (r : Run) (i : Nat) (k : Kind) (D x : SymbolId) : Prop :=
  ∃ s kind, r.operations[i]? = some (.define s x) ∧
    (r.state i).define s x = .ok (.ok (r.state (i + 1))) ∧
    (r.state i).scopeOwner? s = .ok (some D) ∧
    (r.state i).kind D = .ok kind ∧ kind.isAggregate = true ∧ (r.state i).kind x = .ok k

/-- A member that an operation defined joined with a slot. -/
theorem Defines.joins (defines : r.Defines i k D x) (slotted : k.Slotted) :
    ∃ w n slot, Joins (r.state i) w (r.state (i + 1)) k D x n slot := by
  obtain ⟨s, kind, _, defined, owner, read, aggregate, read'⟩ := defines
  obtain ⟨c, scope, owned⟩ := Answer.bind_eq_ok_iff.mp owner
  obtain ⟨b, symbol, shape⟩ := Answer.bind_eq_ok_iff.mp read
  obtain ⟨a, symbol', shape'⟩ := Answer.bind_eq_ok_iff.mp read'
  cases shape
  cases shape'
  obtain ⟨w, slot, joins⟩ := (r.consistent i).joins defined scope (Except.ok.inj owned)
    ⟨b, symbol, aggregate⟩ symbol' slotted
  exact ⟨w, a.name, slot, joins⟩

/-- A step is calm, or a field or method joins a struct or class by it. -/
theorem calm_or_defines (r : Run) (i : Nat) :
    Calm (r.state i) (r.state (i + 1)) ∨ ∃ k D x, k.Slotted ∧ r.Defines i k D x := by
  have consistent := r.consistent i
  cases nth : r.operations[i]? with
  | none =>
    rw [idle nth]
    exact .inl (.refl _)
  | some op =>
    obtain ⟨proper, outcome, applied⟩ := applied nth
    by_cases defining : ∃ s x, op = .define s x
    · obtain ⟨s, x, rfl⟩ := defining
      obtain ⟨result, defined, done⟩ := Answer.bind_eq_ok_iff.mp applied
      cases result with
      | error refusal =>
        have same : r.state i = r.state (i + 1) := congrArg Prod.snd (Except.ok.inj done)
        rw [← same]
        exact .inl (.refl _)
      | ok v =>
        have same : v = r.state (i + 1) := congrArg Prod.snd (Except.ok.inj done)
        subst same
        refine (consistent.calm_or_member proper.1 defined).imp id ?_
        rintro ⟨D, k, kind, slotted, owner, aggregate⟩
        exact ⟨k, D, x, slotted, s, kind, nth, defined, owner, aggregate⟩
    · have changes : Changes (fun k => ¬ k.Slotted) (r.state i) (r.state (i + 1)) := by
        refine changes_of_apply proper applied ?_ ?_
        · rintro (kind | kind) <;> cases kind
        · intro s x a same
          exact absurd ⟨s, x, same⟩ defining
      exact .inl (consistent.calm_changes changes fun _ plain => plain)

theorem grows_succ (r : Run) (i : Nat) : Grows (r.state i) (r.state (i + 1)) := by
  rcases r.calm_or_defines i with calm | ⟨k, D, x, slotted, defines⟩
  · exact calm.toGrows
  · obtain ⟨w, n, slot, joins⟩ := defines.joins slotted
    exact joins.grows

theorem grows (r : Run) (later : i ≤ j) : Grows (r.state i) (r.state j) := by
  induction later with
  | refl => exact .refl _
  | step _ ih => exact ih.trans (r.grows_succ _)

/-- As to one kind of members, a step disturbs nothing or defines such a member. -/
theorem undisturbed_or_defines (r : Run) (i : Nat) (slotted : k.Slotted) :
    (∀ D, Undisturbed k (r.state i) (r.state (i + 1)) D) ∨ ∃ D x, r.Defines i k D x := by
  rcases r.calm_or_defines i with calm | ⟨j, D, x, slotted', defines⟩
  · exact .inl ((r.consistent i).undisturbed calm slotted)
  · by_cases same : j = k
    · subst same
      exact .inr ⟨D, x, defines⟩
    · obtain ⟨w, n, slot, joins⟩ := defines.joins slotted'
      exact .inl fun E => joins.undisturbed (.inl (Ne.symm same))

/-- What holds of a class as long as it has no members of a kind, and is kept by each
member, holds at all times. -/
theorem class_induction (D : SymbolId) {P : Nat → Table → Prop} (slotted : k.Slotted)
    (start : ∀ t, t.own k D = [] → t.nextAt k D = none → P 0 t)
    (still : ∀ i, Undisturbed k (r.state i) (r.state (i + 1)) D → P i (r.state i) →
      P (i + 1) (r.state (i + 1)))
    (joins : ∀ i x w n slot, r.Defines i k D x →
      Joins (r.state i) w (r.state (i + 1)) k D x n slot → P i (r.state i) →
      P (i + 1) (r.state (i + 1))) (i : Nat) : P i (r.state i) := by
  induction i with
  | zero =>
    rw [state_zero]
    have nothing : (Table.new r.config).layoutAt D = none := by
      rw [layoutAt]
      simp [Table.new]
    refine start _ ?_ ?_
    · rw [own, contents, nothing]
      rfl
    · rw [nextAt, nothing]
      rfl
  | succ i ih =>
    rcases r.undisturbed_or_defines i slotted with calm | ⟨E, x, defines⟩
    · exact still i (calm D) ih
    · obtain ⟨w, n, slot, member⟩ := defines.joins slotted
      by_cases here : D = E
      · subst here
        exact joins i x w n slot defines member ih
      · exact still i (member.undisturbed (.inr here)) ih

/-- Every member was defined by an operation before. -/
theorem defined_of_mem_own (slotted : k.Slotted) (member : m ∈ (r.state i).own k D) :
    ∃ j, j < i ∧ r.Defines j k D m := by
  refine class_induction D (P := fun i t => m ∈ t.own k D → ∃ j, j < i ∧ r.Defines j k D m)
    slotted ?_ ?_ ?_ i member
  · intro t empty _ member
    simp [empty] at member
  · intro i still earlier member
    rw [still.own] at member
    obtain ⟨j, before, defines⟩ := earlier member
    exact ⟨j, Nat.lt_succ_of_lt before, defines⟩
  · intro i x w n slot defines joins earlier member
    rw [joins.own_here] at member
    rcases List.mem_append.mp member with member | last
    · obtain ⟨j, before, defines⟩ := earlier member
      exact ⟨j, Nat.lt_succ_of_lt before, defines⟩
    · rw [List.mem_singleton.mp last]
      exact ⟨i, Nat.lt_succ_self i, defines⟩

/-- Without members of a kind there is no counter for their slots. -/
theorem next_of_own_nil (slotted : k.Slotted) (none : (r.state i).own k D = []) :
    (r.state i).nextAt k D = Option.none := by
  refine class_induction D (P := fun _ t => t.own k D = [] → t.nextAt k D = Option.none)
    slotted ?_ ?_ ?_ i none
  · exact fun t _ unset _ => unset
  · intro i still unset none
    rw [still.own] at none
    rw [still.next]
    exact unset none
  · intro i x w n slot _ joins _ none
    have member := joins.mem_own_here
    simp [none] at member

/-- Whenever a member of the kind is defined in a class, the class has a lineage, and
its chain stays the same from then on. -/
def Settled (r : Run) (k : Kind) : Prop :=
  ∀ i D x, r.Defines i k D x →
    ∃ l, (r.state i).Lineage D l ∧ ∀ j, i ≤ j → (r.state j).chain D = .ok l

/-- Once a member of the kind was defined in a class, none is defined in the other
classes of its chain any more. -/
def SuperclassFirst (r : Run) (k : Kind) : Prop :=
  ∀ i j D E x y l, i < j → r.Defines i k D x → r.Defines j k E y →
    (r.state i).chain D = .ok l → E ∉ l.tail

theorem config_eq (r : Run) (i : Nat) : (r.state i).config = r.config := by
  have same := (r.grows (Nat.zero_le i)).config
  rwa [state_zero] at same

/-- The lineage of a class stays what it was when a member got a slot. -/
theorem Settled.lineage (settled : r.Settled k) (slotted : k.Slotted)
    (needs : ∀ i, (r.state i).slotNeedsSuperclass k = true) (defines : r.Defines i k D x) :
    ∃ l, ∀ j, i ≤ j → (r.state j).Lineage D l := by
  obtain ⟨w, n, slot, joins⟩ := defines.joins slotted
  obtain ⟨l, lineage, stays⟩ := settled i D x defines
  have unnamed := lineage.unnamed (joins.rooted (needs i))
  have last : (r.state i).HasSymbol (l.getLastD D) := by
    obtain ⟨rest, rfl⟩ := lineage.walk.eq_cons
    refine hasSymbol_of_mem_walk lineage.walk ?_
    rw [List.getLastD_cons, List.getLastD_eq_getLast?]
    cases end' : rest.getLast? with
    | none => exact List.mem_cons_self
    | some z => exact List.mem_cons_of_mem D (List.mem_of_getLast? end')
  refine ⟨l, fun j later => ⟨stays j later, ?_⟩⟩
  have grows := r.grows later
  refine (r.consistent j).superclass_of_unnamed (grows.hasSymbol last) ?_
  rw [grows.superclass last, unnamed]

/-- A class that has members has a lineage. -/
theorem Settled.lineage_of_own (settled : r.Settled k) (slotted : k.Slotted)
    (needs : ∀ i, (r.state i).slotNeedsSuperclass k = true) (some : (r.state i).own k D ≠ []) :
    ∃ l, (r.state i).Lineage D l := by
  obtain ⟨m, member⟩ := List.exists_mem_of_ne_nil _ some
  obtain ⟨j, before, defines⟩ := defined_of_mem_own slotted member
  obtain ⟨l, known⟩ := settled.lineage slotted needs defines
  exact ⟨l, known i (Nat.le_of_lt before)⟩

/-- When classes get their members superclass first, a class that has members is concerned
by its own members only. So it is enough to follow what each of these does, knowing the
same of the classes above. -/
theorem superclassFirst_induction {P : Table → SymbolId → List SymbolId → Prop}
    (slotted : k.Slotted) (needs : ∀ i, (r.state i).slotNeedsSuperclass k = true)
    (settled : r.Settled k) (ordered : r.SuperclassFirst k)
    (still : ∀ t u D rest, (∀ E ∈ D :: rest, Undisturbed k t u E) → P t D rest → P u D rest)
    (joins : ∀ i D x rest w n slot, r.Defines i k D x →
      Joins (r.state i) w (r.state (i + 1)) k D x n slot →
      (r.state i).Lineage D (D :: rest) → (r.state (i + 1)).Lineage D (D :: rest) →
      (∀ E above, (r.state i).own k E ≠ [] → (r.state i).Lineage E (E :: above) →
        P (r.state i) E above) → P (r.state (i + 1)) D rest)
    {rest : List SymbolId} (some : (r.state i).own k D ≠ [])
    (lineage : (r.state i).Lineage D (D :: rest)) : P (r.state i) D rest := by
  have stays : ∀ {j E x}, r.Defines j k E x → ∃ l, ∀ i, j ≤ i → (r.state i).Lineage E l :=
    fun defines => settled.lineage slotted needs defines
  induction i generalizing D rest with
  | zero =>
    obtain ⟨m, member⟩ := List.exists_mem_of_ne_nil _ some
    obtain ⟨j, before, _⟩ := defined_of_mem_own slotted member
    omega
  | succ i ih =>
    have earlier : (r.state i).own k D ≠ [] →
        ∃ j m, j < i ∧ r.Defines j k D m ∧ (r.state j).chain D = .ok (D :: rest) ∧
          (r.state i).Lineage D (D :: rest) := by
      intro some
      obtain ⟨m, member⟩ := List.exists_mem_of_ne_nil _ some
      obtain ⟨j, before, defines⟩ := defined_of_mem_own slotted member
      obtain ⟨l, known⟩ := stays defines
      have same := lineage.unique (known (i + 1) (by omega))
      subst same
      exact ⟨j, m, before, defines, (known j (Nat.le_refl j)).1, known i (by omega)⟩
    rcases r.undisturbed_or_defines i slotted with calm | ⟨E, x, defines⟩
    · rw [(calm D).own] at some
      obtain ⟨_, _, _, _, _, lineage'⟩ := earlier some
      exact still _ _ D rest (fun F _ => calm F) (ih some lineage')
    · obtain ⟨w, n, slot, member⟩ := defines.joins slotted
      by_cases here : D = E
      · subst here
        obtain ⟨l, known⟩ := stays defines
        have same := lineage.unique (known (i + 1) (by omega))
        subst same
        exact joins i D x rest w n slot defines member (known i (Nat.le_refl i)) lineage
          fun F above some' lineage' => ih some' lineage'
      · rw [(member.undisturbed (.inr here)).own] at some
        obtain ⟨j, m, before, defines', chain, lineage'⟩ := earlier some
        have above := ordered j i D E m x _ before defines' defines chain
        refine still _ _ D rest (member.undisturbed_above ?_) (ih some lineage')
        intro inside
        rcases List.mem_cons.mp inside with same | inside
        · exact here same.symm
        · exact above inside

/-! ### Checking a run -/

/-- The class and the member, if operation `i` defines a member of the kind. -/
def definedBy (r : Run) (k : Kind) (i : Nat) : Option (SymbolId × SymbolId) :=
  match r.operations[i]? with
  | some (.define s x) =>
    match (r.state i).define s x, (r.state i).scopeOwner? s, (r.state i).kind x with
    | .ok (.ok _), .ok (some D), .ok j =>
      match (r.state i).kind D with
      | .ok kind => if kind.isAggregate = true ∧ j = k then some (D, x) else none
      | .error _ => none
    | _, _, _ => none
  | _ => none

theorem defines_iff : r.Defines i k D x ↔ r.definedBy k i = some (D, x) := by
  constructor
  · rintro ⟨s, kind, nth, defined, owner, read, aggregate, read'⟩
    rw [definedBy, nth]
    simp only [defined, owner, read, aggregate, read', and_self, if_true]
  · intro found
    rw [definedBy] at found
    split at found
    · rename_i s y nth
      obtain ⟨_, outcome, applied⟩ := applied nth
      split at found
      · rename_i v E j defined owner read'
        split at found
        · rename_i kind read
          split at found
          · rename_i both
            obtain ⟨aggregate, rfl⟩ := both
            cases found
            rw [apply, defined] at applied
            have next : v = r.state (i + 1) := congrArg Prod.snd (Except.ok.inj applied)
            rw [next] at defined
            exact ⟨s, kind, nth, defined, owner, read, aggregate, read'⟩
          · cases found
        · cases found
      · cases found
    · cases found

theorem Defines.lt (defines : r.Defines i k D x) : i < r.operations.length := by
  obtain ⟨s, kind, nth, _⟩ := defines
  exact (List.getElem?_eq_some_iff.mp nth).1

/-- `Settled`, over the operations and states that there are. -/
theorem settled_iff : r.Settled k ↔ ∀ i, i < r.operations.length → ∀ p ∈ r.definedBy k i,
    ∃ l ∈ ((r.state i).chain p.1).toOption, (r.state i).superclass (l.getLastD p.1) = .ok none ∧
      ∀ j, j < r.operations.length + 1 → i ≤ j → (r.state j).chain p.1 = .ok l := by
  constructor
  · rintro settled i _ ⟨D, x⟩ found
    obtain ⟨l, ⟨chain, ends⟩, stays⟩ := settled i D x (defines_iff.mpr found)
    exact ⟨l, Answer.toOption_eq_some_iff.mpr chain, ends, fun j _ later => stays j later⟩
  · intro checked i D x defines
    obtain ⟨l, chain, ends, stays⟩ := checked i defines.lt (D, x) (defines_iff.mp defines)
    refine ⟨l, ⟨Answer.toOption_eq_some_iff.mp chain, ends⟩, fun j later => ?_⟩
    by_cases within : j < r.operations.length + 1
    · exact stays j within later
    · rw [state_of_le (by omega)]
      exact stays _ (Nat.lt_succ_self _) (Nat.le_of_lt defines.lt)

theorem superclassFirst_iff : r.SuperclassFirst k ↔ ∀ j, j < r.operations.length →
    ∀ i, i < j → ∀ p ∈ r.definedBy k i, ∀ q ∈ r.definedBy k j,
      ∀ l ∈ ((r.state i).chain p.1).toOption, q.1 ∉ l.tail := by
  constructor
  · rintro ordered j _ i before ⟨D, x⟩ found ⟨E, y⟩ found' l chain
    exact ordered i j D E x y l before (defines_iff.mpr found) (defines_iff.mpr found')
      (Answer.toOption_eq_some_iff.mp chain)
  · intro checked i j D E x y l before defines defines' chain
    exact checked j defines'.lt i before (D, x) (defines_iff.mp defines) (E, y)
      (defines_iff.mp defines') l (Answer.toOption_eq_some_iff.mpr chain)

instance decidableSettled (r : Run) (k : Kind) : Decidable (r.Settled k) :=
  decidable_of_iff' _ settled_iff

set_option synthInstance.maxSize 1000 in
instance decidableSuperclassFirst (r : Run) (k : Kind) : Decidable (r.SuperclassFirst k) :=
  decidable_of_iff' _ superclassFirst_iff

end Run

end Scoping
