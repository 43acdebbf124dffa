import Scoping.Proofs.TypeHistory

/-!
# Flags and what they tell

The flags of a type are worked out once, from its tag and the flags of the types it is made
of. Three of them are passed on from part to whole, so in a pool where every type was made of
types that were there, each of the three tells whether a type of one tag occurs anywhere
inside, however many ways lead to it. The others tell something of the outermost constructor.
-/

namespace Scoping

/-! ### Bits -/

/-- The sum of the powers of two that are marked. -/
def sumOfBits (l : List (Nat × Bool)) : Nat :=
  (l.map fun p => if p.2 then 1 <<< p.1 else 0).foldr (· + ·) 0

/-- Powers above a bit add up to a multiple of the next power. -/
theorem shiftLeft_dvd_sumOfBits {l : List (Nat × Bool)} {b : Nat} (above : ∀ p ∈ l, b < p.1) :
    1 <<< (b + 1) ∣ sumOfBits l := by
  induction l with
  | nil => exact Nat.dvd_zero _
  | cons p l ih =>
    refine Nat.dvd_add ?_ (ih fun q member => above q (List.mem_cons_of_mem p member))
    dsimp only
    split
    · rw [Nat.one_shiftLeft, Nat.one_shiftLeft]
      exact Nat.pow_dvd_pow 2 (above p List.mem_cons_self)
    · exact Nat.dvd_zero _

/-- A sum of different powers of two has the bits that are marked. -/
theorem testBit_sumOfBits {l : List (Nat × Bool)}
    (ascending : (l.map Prod.fst).Pairwise (· < ·)) (i : Nat) :
    (sumOfBits l).testBit i = l.any fun p => p.2 && decide (p.1 = i) := by
  induction l with
  | nil => exact Nat.zero_testBit i
  | cons p l ih =>
    obtain ⟨b, set⟩ := p
    rw [List.map_cons, List.pairwise_cons] at ascending
    have above : ∀ p ∈ l, b < p.1 := fun p member =>
      ascending.1 p.1 (List.mem_map_of_mem member)
    obtain ⟨q, sum⟩ := shiftLeft_dvd_sumOfBits above
    rw [Nat.one_shiftLeft] at sum
    have small : (if set then 1 <<< b else 0) < 2 ^ (b + 1) := by
      split
      · rw [Nat.one_shiftLeft]
        exact Nat.pow_lt_pow_right Nat.one_lt_two (Nat.lt_succ_self b)
      · exact Nat.two_pow_pos _
    have first : (if set then 1 <<< b else 0 : Nat).testBit i = (set && decide (b = i)) := by
      cases set with
      | true => rw [if_pos rfl, Nat.one_shiftLeft, Nat.testBit_two_pow, Bool.true_and]
      | false => exact Nat.zero_testBit i
    have split : sumOfBits ((b, set) :: l) = 2 ^ (b + 1) * q + (if set then 1 <<< b else 0) := by
      rw [← sum, Nat.add_comm]
      rfl
    rw [List.any_cons, ← ih ascending.2, split, Nat.testBit_two_pow_mul_add q small, sum,
      Nat.testBit_two_pow_mul, first]
    by_cases low : i < b + 1
    · simp [low, Nat.not_le_of_lt low]
    · have apart : b ≠ i := by omega
      simp [low, apart, Nat.le_of_not_lt low]

namespace Flags

variable {f : Flags} {has : Flags → Bool} {k : Tag}

/-- The flag at a bit. -/
def atBit (f : Flags) : Nat → Bool
  | 0 => f.hasInvalid
  | 1 => f.hasAlias
  | 2 => f.hasAggregate
  | 8 => f.isPrimitive
  | 9 => f.isPointer
  | 10 => f.isArray
  | 11 => f.isFunction
  | 12 => f.isNominal
  | 16 => f.isSized
  | _ => false

/-- The number that the flags are written as has their bits and no others. -/
theorem testBit_bits (f : Flags) (i : Nat) : f.bits.testBit i = f.atBit i := by
  have ascending : ((legend.map fun e => (e.2.1, e.2.2 f)).map Prod.fst).Pairwise (· < ·) := by
    have bits : (legend.map fun e => e.2.1).Pairwise (· < ·) := by decide
    rwa [List.map_map]
  refine (testBit_sumOfBits ascending i).trans ?_
  match i with
  | 0 | 1 | 2 | 3 | 4 | 5 | 6 | 7 | 8 | 9 | 10 | 11 | 12 | 13 | 14 | 15 | 16 | _ + 17 =>
    simp [legend, atBit]

/-- The flag tells of one tag, and the whole has it from its parts. -/
structure Passed (has : Flags → Bool) (k : Tag) : Prop where
  ofTag : ∀ k', has (.ofTag k') = decide (k' = k)
  withChild : ∀ f child, has (f.withChild child) = (has f || has child)
  sized : ∀ f, has { f with isSized := true } = has f

/-- The flag tells of the outermost constructor. -/
structure Own (has : Flags → Bool) (p : Tag → Prop) : Prop where
  ofTag : ∀ k, has (.ofTag k) = true ↔ p k
  withChild : ∀ f child, has (f.withChild child) = has f
  sized : ∀ f, has { f with isSized := true } = has f

theorem passed_hasInvalid : Passed hasInvalid .invalid :=
  ⟨fun k => by cases k <;> rfl, fun _ _ => rfl, fun _ => rfl⟩

theorem passed_hasAlias : Passed hasAlias .typeAlias :=
  ⟨fun k => by cases k <;> rfl, fun _ _ => rfl, fun _ => rfl⟩

theorem passed_hasAggregate : Passed hasAggregate .aggregate :=
  ⟨fun k => by cases k <;> rfl, fun _ _ => rfl, fun _ => rfl⟩

theorem own_isPrimitive : Own isPrimitive (· = .primitive) :=
  ⟨fun k => by cases k <;> decide, fun _ _ => Bool.or_false _, fun _ => rfl⟩

theorem own_isPointer : Own isPointer (· = .pointer) :=
  ⟨fun k => by cases k <;> decide, fun _ _ => Bool.or_false _, fun _ => rfl⟩

theorem own_isArray : Own isArray (· = .array) :=
  ⟨fun k => by cases k <;> decide, fun _ _ => Bool.or_false _, fun _ => rfl⟩

theorem own_isFunction : Own isFunction (· = .function) :=
  ⟨fun k => by cases k <;> decide, fun _ _ => Bool.or_false _, fun _ => rfl⟩

theorem own_isNominal : Own isNominal (fun k => k = .typeAlias ∨ k = .aggregate) :=
  ⟨fun k => by cases k <;> decide, fun _ _ => Bool.or_false _, fun _ => rfl⟩

/-- Parts leave a flag alone that tells of the outermost constructor. -/
theorem foldl_withChild_own (alone : ∀ f child, has (f.withChild child) = has f)
    (flags : TypeId → Flags) (parts : List TypeId) (f : Flags) :
    has (parts.foldl (fun f c => f.withChild (flags c)) f) = has f := by
  induction parts generalizing f with
  | nil => rfl
  | cons c parts ih => rw [List.foldl_cons, ih, alone]

/-- A flag that is passed on is set at the start or in one of the parts. -/
theorem Passed.foldl_withChild (passed : Passed has k) (flags : TypeId → Flags)
    (parts : List TypeId) (f : Flags) :
    has (parts.foldl (fun f c => f.withChild (flags c)) f) =
      (has f || parts.any fun c => has (flags c)) := by
  induction parts generalizing f with
  | nil => exact (Bool.or_false _).symm
  | cons c parts ih =>
    rw [List.foldl_cons, ih, passed.withChild, List.any_cons, Bool.or_assoc]

end Flags

namespace Pool

variable {pool later : Pool} {t : TypeId} {e : TypeExpr} {has : Flags → Bool} {k : Tag}
  {p : Tag → Prop}

theorem Laid.tag_expr (laid : pool.Laid) (t : TypeId) : (pool.expr t).tag = pool.tag t :=
  (tag_eq_of_read (laid.read_eq t)).symm

/-- Only the fixed length of an array is noted after the parts are taken into account. -/
theorem flagsOf_of_sized (sized : ∀ f : Flags, has { f with isSized := true } = has f) :
    has (pool.flagsOf e) =
      has (e.children.foldl (fun f c => f.withChild (pool.flags c)) (.ofTag e.tag)) := by
  unfold flagsOf
  split
  · exact sized _
  · rfl

theorem flagsOf_passed (passed : Flags.Passed has k) :
    has (pool.flagsOf e) = (decide (e.tag = k) || e.children.any fun c => has (pool.flags c)) := by
  rw [flagsOf_of_sized passed.sized, passed.foldl_withChild, passed.ofTag]

theorem flagsOf_own (own : Flags.Own has p) : has (pool.flagsOf e) = true ↔ p e.tag := by
  rw [flagsOf_of_sized own.sized, Flags.foldl_withChild_own own.withChild, own.ofTag]

/-- The length of an array is noted just when it is fixed. -/
theorem isSized_flagsOf :
    (pool.flagsOf e).isSized = true ↔ ∃ elem length, e = .array elem (some length) := by
  unfold flagsOf
  split
  · rename_i elem length
    exact iff_of_true rfl ⟨elem, length, rfl⟩
  · rename_i other
    have none : (Flags.ofTag e.tag).isSized = false := by cases e.tag <;> rfl
    have alone : ∀ f child : Flags, (f.withChild child).isSized = f.isSized :=
      fun f child => Bool.or_false f.isSized
    have kept := Flags.foldl_withChild_own alone pool.flags e.children (.ofTag e.tag)
    rw [kept, none]
    refine iff_of_false Bool.false_ne_true ?_
    rintro ⟨elem, length, same⟩
    exact other elem length same

/-- The flags are worked out from those of the parts alone. -/
theorem flagsOf_congr (same : ∀ c ∈ e.children, pool.flags c = later.flags c) :
    pool.flagsOf e = later.flagsOf e := by
  unfold flagsOf
  rw [List.foldl_ext _ (fun f c => f.withChild (later.flags c)) _
    fun f c member => by rw [same c member]]

/-- What the bit tells of a type: what occurs in it, which constructor made it, or that it is
an array of a fixed length. -/
def Shows (pool : Pool) (t : TypeId) : Nat → Prop
  | 0 => pool.Reaches t .invalid
  | 1 => ∃ u, pool.Reaches t u ∧ pool.tag u = .typeAlias
  | 2 => ∃ u, pool.Reaches t u ∧ pool.tag u = .aggregate
  | 8 => pool.tag t = .primitive
  | 9 => pool.tag t = .pointer
  | 10 => pool.tag t = .array
  | 11 => pool.tag t = .function
  | 12 => pool.tag t = .typeAlias ∨ pool.tag t = .aggregate
  | 16 => ∃ length, pool.arrayLength? t = some length
  | _ => False

theorem arrayLength?_eq_some_iff {length : Nat} : pool.arrayLength? t = some length ↔
    ∃ elem, pool.expr t = .array elem (some length) := by
  rw [arrayLength?]
  cases pool.expr t <;> simp

end Pool

namespace TypeStore

variable {l : List TypeCall} {t u : TypeId} {has : Flags → Bool} {k : Tag}

/-- The flags of a type are what would be worked out for it now. -/
theorem flags_eq_flagsOf (grounded : Grounded l t)
    (contained : (start.calls l).pool.contains t = true) :
    (start.calls l).pool.flags t =
      (start.calls l).pool.flagsOf ((start.calls l).pool.expr t) := by
  by_cases first : t = .invalid
  · have old := Pool.canonical_start.indexed.laid.flags_eq (start.keeps_calls l).pool
      Pool.holds_invalid_start.contains
    rw [first, (holds_invalid l).expr_eq, old]
    rfl
  · obtain ⟨i, r, added⟩ := exists_added l contained first
    have laid := (sound_start.calls (l.take i)).canonical.indexed.laid
    rw [added.flags, added.holds.expr_eq]
    refine Pool.flagsOf_congr fun c child => ?_
    exact (laid.flags_eq (keeps_take l i).pool (grounded i r added.call added.answer c child)).symm

/-- Only the invalid type has the tag of an invalid type. -/
theorem eq_invalid_of_tag (contained : (start.calls l).pool.contains u = true)
    (tag : (start.calls l).pool.tag u = .invalid) : u = .invalid := by
  by_contra other
  obtain ⟨i, r, added⟩ := exists_added l contained other
  rw [Pool.tag_eq_of_read added.holds.2] at tag
  cases r <;> cases tag

/-- A flag that is passed on tells whether a type of its tag occurs. -/
theorem passed_iff (grounded : ∀ u, Grounded l u) (passed : Flags.Passed has k)
    (contained : (start.calls l).pool.contains t = true) :
    has ((start.calls l).pool.flags t) = true ↔
      ∃ u, (start.calls l).pool.Reaches t u ∧ (start.calls l).pool.tag u = k := by
  -- the parts of a type are older than it
  induction age : t.index using Nat.strongRecOn generalizing t with
  | _ n ih =>
    have laid := (sound_start.calls l).canonical.indexed.laid
    rw [flags_eq_flagsOf (grounded t) contained, Pool.flagsOf_passed passed, laid.tag_expr,
      Bool.or_eq_true, decide_eq_true_iff, List.any_eq_true]
    have inside : ∀ c, (start.calls l).pool.Part t c →
        (has ((start.calls l).pool.flags c) = true ↔
          ∃ u, (start.calls l).pool.Reaches c u ∧ (start.calls l).pool.tag u = k) := by
      intro c part
      obtain ⟨there, before⟩ := (grounded t).part_before contained part
      exact ih c.index (age ▸ before) there rfl
    constructor
    · rintro (own | ⟨c, child, set⟩)
      · exact ⟨t, .refl, own⟩
      · have part := Pool.part_iff.mpr child
        obtain ⟨u, reaches, tag⟩ := (inside c part).mp set
        exact ⟨u, .head part reaches, tag⟩
    · rintro ⟨u, reaches, tag⟩
      rcases Relation.ReflTransGen.cases_head reaches with rfl | ⟨c, part, reaches⟩
      · exact .inl tag
      · exact .inr ⟨c, Pool.part_iff.mp part, (inside c part).mpr ⟨u, reaches, tag⟩⟩

/-- Cached flags equal a full walk over the type. In a pool whose constructor calls all used
types of the pool, the number of a type's flags has just those bits that tell the truth: of
the invalid type, of aliases and of aggregates wherever they occur in the type, of the
type's own constructor, and of an array whether its length is fixed. -/
theorem flags_traversed (l : List TypeCall) (grounded : ∀ u, Grounded l u) (t : TypeId)
    (contained : (start.calls l).pool.contains t = true) (i : Nat) :
    ((start.calls l).pool.flags t).bits.testBit i = true ↔ (start.calls l).pool.Shows t i := by
  have laid := (sound_start.calls l).canonical.indexed.laid
  have own : ∀ {has p}, Flags.Own has p → (has ((start.calls l).pool.flags t) = true ↔
      p ((start.calls l).pool.tag t)) := by
    intro has p own
    rw [flags_eq_flagsOf (grounded t) contained, Pool.flagsOf_own own, laid.tag_expr]
  rw [Flags.testBit_bits]
  match i with
  | 0 =>
    refine (passed_iff grounded Flags.passed_hasInvalid contained).trans ⟨?_, fun reaches => ?_⟩
    · rintro ⟨u, reaches, tag⟩
      have there := contains_of_reaches (fun u _ => grounded u) contained reaches
      obtain rfl := eq_invalid_of_tag there tag
      exact reaches
    · exact ⟨.invalid, reaches, Pool.tag_eq_of_read (holds_invalid l).2⟩
  | 1 => exact passed_iff grounded Flags.passed_hasAlias contained
  | 2 => exact passed_iff grounded Flags.passed_hasAggregate contained
  | 8 => exact own Flags.own_isPrimitive
  | 9 => exact own Flags.own_isPointer
  | 10 => exact own Flags.own_isArray
  | 11 => exact own Flags.own_isFunction
  | 12 => exact own Flags.own_isNominal
  | 16 =>
    rw [Flags.atBit, flags_eq_flagsOf (grounded t) contained, Pool.isSized_flagsOf, Pool.Shows]
    simp only [Pool.arrayLength?_eq_some_iff]
    exact exists_comm
  | 3 | 4 | 5 | 6 | 7 | 13 | 14 | 15 | _ + 17 => exact iff_of_false Bool.false_ne_true id

/-- A function type that an alias, an array of a fixed length and the invalid type occur in. -/
theorem flags_traversed_function :
    let l : List TypeCall := [.request (.primitive ⟨0⟩), .request (.typeAlias ⟨0⟩ ⟨0⟩ ⟨1⟩),
      .request (.sizedArray ⟨2⟩ 4), .request (.function ⟨3⟩ [⟨0⟩, ⟨1⟩])]
    (∀ u, Grounded l u) ∧ (start.calls l).pool.contains ⟨4⟩ = true ∧
    ((start.calls l).pool.flags ⟨4⟩).bits = 1 <<< 0 + 1 <<< 1 + 1 <<< 11 ∧
    (start.calls l).pool.Shows ⟨4⟩ 1 ∧ ¬ (start.calls l).pool.Shows ⟨4⟩ 2 := by
  intro l
  have grounded : ∀ u, Grounded l u := by
    intro u i r asked _
    match i, asked with
    | 0, asked | 1, asked | 2, asked | 3, asked =>
      cases asked
      decide +kernel
  have contained : (start.calls l).pool.contains ⟨4⟩ = true := by decide +kernel
  have bits : ((start.calls l).pool.flags ⟨4⟩).bits = 1 <<< 0 + 1 <<< 1 + 1 <<< 11 := by
    decide +kernel
  have shown := flags_traversed l grounded ⟨4⟩ contained
  rw [bits] at shown
  exact ⟨grounded, contained, bits, (shown 1).mp rfl, fun tells => by cases (shown 2).mpr tells⟩

end TypeStore

end Scoping
