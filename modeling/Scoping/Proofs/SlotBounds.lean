import Scoping.Proofs.Membership
import Scoping.Proofs.SlotOrigins

/-!
# How large numbers become

Slots and their counters never run ahead of the symbols. A slot is no larger than the number
of symbols that have one, since it is inherited, or follows one that was given before, or
counts fields. A struct or class has no slot itself, so it is one symbol more. Positions and
the lengths of listings are bounded by the number of symbols as well.
-/

namespace Scoping

namespace Table

variable {t u w : Table} {k : Kind} {D x y : SymbolId} {n : Name} {slot v b : Nat}

/-- At least so many symbols have a slot. -/
def Slots (t : Table) (v : Nat) : Prop :=
  ∃ l : List SymbolId, l.Nodup ∧ v ≤ l.length ∧ ∀ y ∈ l, (t.slotAt y).isSome

/-- No slot, and no last slot that a counter stands for, is above the number of slots. -/
structure SlotsBounded (t : Table) : Prop where
  slot : ∀ {x v}, t.slotAt x = some v → t.Slots v
  next : ∀ {k D v}, t.nextAt k D = some v → t.Slots (v - 1)

theorem slots_zero (t : Table) : t.Slots 0 := ⟨[], List.nodup_nil, Nat.le_refl 0, by simp⟩

theorem Slots.mono (slots : t.Slots v) (le : b ≤ v) : t.Slots b := by
  obtain ⟨l, distinct, enough, taken⟩ := slots
  exact ⟨l, distinct, le.trans enough, taken⟩

theorem Slots.congr (slots : t.Slots v) (same : ∀ y, u.slotAt y = t.slotAt y) : u.Slots v := by
  obtain ⟨l, distinct, enough, taken⟩ := slots
  exact ⟨l, distinct, enough, fun y member => same y ▸ taken y member⟩

theorem slotsBounded_new (config : Config) : (Table.new config).SlotsBounded where
  slot := by simp [slotAt, Table.new]
  next := by simp [nextAt, layoutAt, Table.new]

theorem Calm.slotsBounded (calm : Calm t u) (bounded : t.SlotsBounded) : u.SlotsBounded where
  slot taken := (bounded.slot ((calm.slot _).symm.trans taken)).congr calm.slot
  next counts := (bounded.next ((calm.next _ _).symm.trans counts)).congr calm.slot

/-- The slot that is taken over is one that a symbol has. -/
theorem slotAt_of_overriddenSlot? (taken : w.overriddenSlot? D n = .ok (some slot)) :
    ∃ y, w.slotAt y = some slot := by
  obtain ⟨above, _, taken⟩ := Answer.bind_eq_ok_iff.mp taken
  cases above with
  | none => cases taken
  | some P =>
    obtain ⟨found, _, taken⟩ := Answer.bind_eq_ok_iff.mp taken
    cases found with
    | none => cases taken
    | some y =>
      obtain ⟨a, read, same⟩ := Answer.bind_eq_ok_iff.mp taken
      exact ⟨y, (slotAt_of_symbol read).trans (Except.ok.inj same)⟩

/-- The first method slot is 0, or it follows the slot of a symbol. -/
theorem Consistent.methodBase_bound (consistent : w.Consistent)
    (base : w.methodBase D = .ok b) : b = 0 ∨ ∃ y, w.slotAt y = some (b - 1) := by
  obtain ⟨above, known, base'⟩ := Answer.bind_eq_ok_iff.mp base
  cases above with
  | none => exact .inl (Except.ok.inj base').symm
  | some P =>
    obtain ⟨listed, shown, _⟩ := Answer.bind_eq_ok_iff.mp base'
    rw [consistent.methodBase known shown, Except.ok.injEq] at base
    subst base
    cases largest : ((listed.map w.slotAt).filterMap id).max? with
    | none => exact .inl rfl
    | some v =>
      obtain ⟨o, member, taken⟩ :=
        List.mem_filterMap.mp (List.max?_eq_some_iff.mp largest).1
      obtain ⟨y, _, rfl⟩ := List.mem_map.mp member
      exact .inr ⟨y, taken⟩

/-- The first field slot is 0, or it counts fields. -/
theorem Consistent.fieldBase_bound (consistent : w.Consistent)
    (base : w.fieldBase D = .ok b) : b = 0 ∨ ∃ l, b = (w.layered .field l).length := by
  obtain ⟨above, _, base⟩ := Answer.bind_eq_ok_iff.mp base
  split at base
  · rename_i P _
    obtain ⟨listed, shown, same⟩ := Answer.bind_eq_ok_iff.mp base
    obtain ⟨l, _, rfl⟩ := consistent.layered_of_visibleMembers shown
    exact .inr ⟨l, (Except.ok.inj same).symm⟩
  · exact .inl (Except.ok.inj base).symm

/-- The symbol that joined has a slot and had none before. -/
theorem Joins.slots_succ (joins : Joins t w u k D x n slot) (unset : t.slotAt x = none)
    (slots : t.Slots v) : u.Slots (v + 1) := by
  obtain ⟨l, distinct, enough, taken⟩ := slots
  have fresh : x ∉ l := by
    intro member
    have set := taken x member
    rw [unset] at set
    cases set
  refine ⟨x :: l, List.nodup_cons.mpr ⟨fresh, distinct⟩, Nat.succ_le_succ enough, ?_⟩
  intro y member
  rw [joins.slots]
  split
  · rfl
  · rename_i other
    exact taken y ((List.mem_cons.mp member).resolve_left (Ne.symm other))

/-- The slot that a symbol gets is bounded when the ones before are, and all fields that the
table lists have slots. -/
theorem Joins.slots_slot (joins : Joins t w u k D x n slot) (slotted : k.Slotted)
    (owner : t.HasSymbol D) (unset : t.slotAt x = none) (bounded : t.SlotsBounded)
    (fields : ∀ l, u.Slots (u.layered .field l).length) : u.Slots slot := by
  rcases joins.due with ⟨_, taken, _⟩ | ⟨_, due, _⟩
  · obtain ⟨y, taken⟩ := slotAt_of_overriddenSlot? taken
    rw [joins.slotBefore] at taken
    exact (joins.slots_succ unset (bounded.slot taken)).mono (Nat.le_succ slot)
  · have given : w.HasSymbol D :=
      joins.same.alike.hasSymbol_iff.mpr (joins.grows.hasSymbol owner)
    rw [nextSlot_eq slotted given, joins.nextBefore] at due
    cases counter : t.nextAt k D with
    | some next =>
      simp only [counter, Except.ok.injEq] at due
      subst due
      exact (joins.slots_succ unset (bounded.next counter)).mono (by omega)
    | none =>
      simp only [counter] at due
      rcases slotted with rfl | rfl
      · rcases joins.consistent.fieldBase_bound due with rfl | ⟨l, rfl⟩
        · exact slots_zero u
        · have same : w.layered .field l = u.layered .field l :=
            layered_congr (fun _ _ _ _ => joins.same.nameAt_eq.symm)
              fun E _ => (joins.same.own_eq .field E).symm
          rw [same]
          exact fields l
      · rcases joins.consistent.methodBase_bound due with rfl | ⟨y, taken⟩
        · exact slots_zero u
        · rw [joins.slotBefore] at taken
          exact (joins.slots_succ unset (bounded.slot taken)).mono (by omega)

/-- When the slot that a symbol gets is bounded, all of them still are. -/
theorem Joins.slotsBounded (joins : Joins t w u k D x n slot) (unset : t.slotAt x = none)
    (bounded : t.SlotsBounded) (new : u.Slots slot) : u.SlotsBounded where
  slot {y v} taken := by
    rw [joins.slots] at taken
    split at taken
    · exact Option.some.inj taken ▸ new
    · exact (joins.slots_succ unset (bounded.slot taken)).mono (Nat.le_succ v)
  next {j E v} counts := by
    have still : t.nextAt j E = some v → u.Slots (v - 1) := fun counts =>
      (joins.slots_succ unset (bounded.next counts)).mono (Nat.le_succ _)
    rcases joins.due with ⟨_, _, next⟩ | ⟨_, _, next⟩
    · exact still ((next j E).symm.trans counts)
    · rw [next] at counts
      split at counts
      · cases counts
        exact new
      · exact still counts

/-- There are more symbols than slots as soon as there is a struct or class. -/
theorem Slots.lt_symbolCount (slots : t.Slots v) (aggregate : t.IsAggregate D) :
    v < t.symbolCount := by
  obtain ⟨l, distinct, enough, taken⟩ := slots
  obtain ⟨a, read, kind⟩ := aggregate
  have apart : D ∉ l := by
    intro member
    have set := taken D member
    rw [slotAt_of_symbol read] at set
    cases form : a.form <;> simp_all [Symbol.kind, Form.kind, Kind.isAggregate, Form.slot?]
  have given : ∀ y ∈ D :: l, t.HasSymbol y := by
    intro y member
    rcases List.mem_cons.mp member with rfl | member
    · exact hasSymbol_iff.mpr ⟨a, read⟩
    · obtain ⟨v, slot⟩ := Option.isSome_iff_exists.mp (taken y member)
      obtain ⟨b, entry, _⟩ := Option.bind_eq_some_iff.mp slot
      exact hasSymbol_iff.mpr ⟨b, symbol_eq_ok_iff.mpr entry⟩
  have short := length_le_of_nodup (List.nodup_cons.mpr ⟨apart, distinct⟩) given
  rw [List.length_cons] at short
  exact Nat.lt_of_lt_of_le (Nat.lt_succ_of_le enough) short

end Table

open Table

theorem Run.slots_layered (r : Run) (i : Nat) (l : List SymbolId) :
    (r.state i).Slots ((r.state i).layered .field l).length := by
  refine ⟨_, nodup_layered .field l, Nat.le_refl _, fun m listed => ?_⟩
  obtain ⟨D, _, member⟩ := exists_own_of_mem_layered listed
  obtain ⟨v, taken⟩ := exists_slotAt (.inl rfl) member
  rw [taken]
  rfl

theorem Run.slotsBounded (r : Run) (i : Nat) : (r.state i).SlotsBounded := by
  induction i with
  | zero =>
    rw [state_zero]
    exact slotsBounded_new r.config
  | succ i ih =>
    rcases r.calm_or_defines i with calm | ⟨k, D, x, slotted, defines⟩
    · exact calm.slotsBounded ih
    · obtain ⟨w, n, slot, joins⟩ := defines.joins slotted
      have unset := slotAt_eq_none joins
      obtain ⟨_, kind, _, _, _, known, _⟩ := defines
      obtain ⟨a, read, _⟩ := Answer.bind_eq_ok_iff.mp known
      have owner : (r.state i).HasSymbol D := hasSymbol_iff.mpr ⟨a, read⟩
      exact joins.slotsBounded unset ih
        (joins.slots_slot slotted owner unset ih (r.slots_layered (i + 1)))

namespace Table

/-- The numbers that a table holds or counts beside its handles are not larger than the number
of its symbols. So 32 bits suffice for them as long as they suffice for the symbols. -/
structure Bounded (t : Table) : Prop where
  slot : ∀ {x v}, t.slot? x = .ok (some v) → v < t.symbolCount
  next : ∀ {k D v}, t.nextAt k D = some v → v ≤ t.symbolCount
  position : ∀ {x i}, t.insertionOrder? x = .ok (some i) → i < t.symbolCount
  members : ∀ {s l}, t.symbolsOf s = .ok l → l.length ≤ t.symbolCount
  visible : ∀ {k x l}, t.visibleMembers k x = .ok l → l.length ≤ t.symbolCount

theorem Reachable.bounded {t : Table} (reachable : t.Reachable) : t.Bounded := by
  have consistent := reachable.consistent
  have members : ∀ {s l}, t.symbolsOf s = .ok l → l.length ≤ t.symbolCount := by
    intro s l listed
    refine length_le_of_nodup (consistent.nodup_symbolsOf listed) fun x member => ?_
    obtain ⟨a, symbol, _⟩ :=
      owningScope?_eq_ok_iff.mp ((consistent.mem_symbolsOf_iff listed).mp member)
    exact hasSymbol_iff.mpr ⟨a, symbol⟩
  obtain ⟨r, rfl⟩ := reachable.exists_run
  have bounded := r.slotsBounded r.operations.length
  constructor
  case slot =>
    intro x v taken
    obtain ⟨a, read, same⟩ := Answer.bind_eq_ok_iff.mp taken
    have taken : r.final.slotAt x = some v := (slotAt_of_symbol read).trans (Except.ok.inj same)
    obtain ⟨D, member⟩ := Run.mem_contents_of_slotAt taken
    exact (bounded.slot taken).lt_symbolCount (.of_mem member)
  case next =>
    intro k D v counts
    obtain ⟨layout, has, _⟩ := Option.bind_eq_some_iff.mp counts
    have below := (bounded.next counts).lt_symbolCount (.of_layoutAt has)
    have : v - 1 < r.final.symbolCount := below
    omega
  case position =>
    intro x i place
    obtain ⟨a, symbol, place'⟩ := insertionOrder?_eq_ok_iff.mp place
    obtain ⟨p, placed, rfl⟩ := Option.map_eq_some_iff.mp place'
    obtain ⟨c, read, there⟩ := reachable.positioned _ _ _ symbol placed
    have short := members (symbolsOf_eq_ok_iff.mpr ⟨c, read, rfl⟩)
    rw [Array.length_toList] at short
    exact Nat.lt_of_lt_of_le (Array.getElem?_eq_some_iff.mp there).1 short
  case members => exact members
  case visible =>
    intro k x l shown
    obtain ⟨chain, _, rfl⟩ := consistent.layered_of_visibleMembers shown
    exact length_le_of_nodup (nodup_layered k chain) fun m => consistent.hasSymbol_of_mem_layered

end Table

end Scoping
