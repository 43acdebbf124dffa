import Scoping.Proofs.Storage

/-!
# One handle for each type

A pool finds a type by its key and a handle by its number, and the two agree. A
constructor call therefore answers with the handle that the type has, or it adds the type
at the end, and nothing that a pool holds is changed by later calls. So the handles that
two calls are answered with are equal just when the calls ask for the same type, and the
accessors of a type spell out a call that leads back to it.
-/

namespace Scoping

namespace TypeRequest

variable {r q : TypeRequest}

/-- The call in its full form: an array of no fixed length is asked for by the reserved
length. -/
def spelled : TypeRequest → TypeRequest
  | array elem => sizedArray elem unbounded
  | r => r

/-- Two calls ask for the same type just when their full forms are the same. -/
theorem expr_eq_expr_iff : r.expr = q.expr ↔ r.spelled = q.spelled := by
  cases r <;> cases q <;> simp [expr, spelled]
  case array.sizedArray => exact fun _ => eq_comm
  case sizedArray.sizedArray =>
    intro _
    split <;> split <;> grind

end TypeRequest

namespace Pool

variable {pool : Pool} {id : TypeId} {d e : TypeExpr} {r q : TypeRequest}

/-- The handle was given out for the type. -/
def Holds (pool : Pool) (id : TypeId) (e : TypeExpr) : Prop :=
  pool.contains id = true ∧ pool.read id = .ok e

theorem Holds.contains (holds : pool.Holds id e) : pool.contains id = true := holds.1

theorem Holds.expr_eq (holds : pool.Holds id e) : pool.expr id = e := by
  rw [expr, holds.2]

theorem Holds.regular (holds : pool.Holds id e) : e.Regular := regular_of_read holds.2

theorem Holds.mono (holds : pool.Holds id e) {later : Pool} (ext : Extends pool later) :
    later.Holds id e := ⟨ext.contains holds.1, ext.read holds.1 holds.2⟩

theorem intern_of_found (found : pool.find? e = some id) : pool.intern e = (id, pool) := by
  rw [intern, found]

theorem intern_of_new (new : pool.find? e = none) :
    pool.intern e = (⟨pool.size⟩, pool.add e) := by
  rw [intern, new]

theorem extends_intern (pool : Pool) (e : TypeExpr) : Extends pool (pool.intern e).2 := by
  cases found : pool.find? e with
  | some id =>
    rw [intern_of_found found]
    exact .refl pool
  | none =>
    rw [intern_of_new found]
    exact extends_add pool e

/-- What a new type adds to a pool. -/
theorem Laid.holds_add (laid : pool.Laid) (regular : e.Regular) :
    (pool.add e).Holds id d ↔ id = ⟨pool.size⟩ ∧ d = e ∨ pool.Holds id d := by
  constructor
  · rintro ⟨there, known⟩
    rcases contains_add.mp there with rfl | old
    · rw [read_add_self pool regular] at known
      exact .inl ⟨rfl, (Except.ok.inj known).symm⟩
    · obtain ⟨d', known'⟩ := laid.readable id
      rw [(extends_add pool e).read old known'] at known
      exact .inr ⟨old, known'.trans known⟩
  · rintro (⟨rfl, rfl⟩ | held)
    · exact ⟨contains_add.mpr (.inl rfl), read_add_self pool regular⟩
    · exact held.mono (extends_add pool e)

/-- A type is found under the handle that was given out for it. -/
structure Indexed (pool : Pool) : Prop where
  laid : pool.Laid
  find?_iff : ∀ {e id}, e.Regular → (pool.find? e = some id ↔ pool.Holds id e)

namespace Indexed

theorem holds_expr (indexed : pool.Indexed) (contained : pool.contains id = true) :
    pool.Holds id (pool.expr id) := ⟨contained, indexed.laid.read_eq id⟩

/-- A type has one handle. -/
theorem unique (indexed : pool.Indexed) {a b : TypeId} (first : pool.Holds a e)
    (second : pool.Holds b e) : a = b := by
  have known := (indexed.find?_iff first.regular).mpr first
  rw [(indexed.find?_iff first.regular).mpr second] at known
  exact (Option.some.inj known).symm

/-- What is interned is held under the handle that is answered. -/
theorem holds_intern (indexed : pool.Indexed) (regular : e.Regular) :
    (pool.intern e).2.Holds (pool.intern e).1 e := by
  cases found : pool.find? e with
  | some id =>
    rw [intern_of_found found]
    exact (indexed.find?_iff regular).mp found
  | none =>
    rw [intern_of_new found]
    exact (indexed.laid.holds_add regular).mpr (.inl ⟨rfl, rfl⟩)

theorem intern (indexed : pool.Indexed) (regular : e.Regular) : (pool.intern e).2.Indexed := by
  cases new : pool.find? e with
  | some old =>
    rw [intern_of_found new]
    exact indexed
  | none =>
    rw [intern_of_new new]
    refine ⟨indexed.laid.add regular, fun {d id} regular' => ?_⟩
    rw [indexed.laid.holds_add regular, ← indexed.find?_iff regular', find?, find?, add,
      Std.TreeMap.getElem?_insert]
    by_cases same : e = d
    · subst same
      have unknown : pool.index[e.key]? = none := new
      simp [unknown, eq_comm]
    · -- another type has another key
      have apart : compare e.key d.key ≠ .eq := fun h =>
        same (eq_of_key_eq regular regular' (Std.compare_eq_iff_eq.mp h))
      simp [apart, Ne.symm same]

end Indexed

theorem not_holds_empty : ¬ empty.Holds id e := fun holds =>
  Nat.not_lt_zero id.index (contains_iff_lt.mp holds.contains)

theorem indexed_empty : empty.Indexed := by
  refine ⟨laid_empty, fun {e id} _ => ?_⟩
  have unknown : empty.find? e = none := by simp [find?, empty]
  simp [unknown, not_holds_empty]

/-- Every type is found under its handle, and all but the invalid one were asked for by a
constructor call. -/
structure Canonical (pool : Pool) : Prop where
  indexed : pool.Indexed
  asked : ∀ {id e}, pool.Holds id e → id ≠ .invalid → ∃ r : TypeRequest, e = r.expr

theorem canonical_start : start.Canonical := by
  refine ⟨indexed_empty.intern (e := .invalid) trivial, fun {id e} holds other => ?_⟩
  have new : empty.find? .invalid = none := by simp [find?, empty]
  rw [start, intern_of_new new, laid_empty.holds_add (e := .invalid) trivial] at holds
  rcases holds with ⟨first, -⟩ | held
  · exact absurd first other
  · exact absurd held not_holds_empty

theorem Canonical.request (canonical : pool.Canonical) (r : TypeRequest) :
    (pool.request r).2.Canonical := by
  refine ⟨canonical.indexed.intern r.regular, fun {id e} holds other => ?_⟩
  cases new : pool.find? r.expr with
  | some old =>
    rw [Pool.request, intern_of_found new] at holds
    exact canonical.asked holds other
  | none =>
    rw [Pool.request, intern_of_new new, canonical.indexed.laid.holds_add r.regular] at holds
    rcases holds with ⟨-, asked⟩ | held
    · exact ⟨r, asked⟩
    · exact canonical.asked held other

theorem Canonical.number (canonical : pool.Canonical) (type : TypeId) (index : Nat) :
    (pool.setTypeIndex type index).Canonical := by
  have indexed := canonical.indexed
  exact ⟨⟨⟨indexed.laid.marked, indexed.laid.readable⟩, indexed.find?_iff⟩, canonical.asked⟩

/-- The pool after constructor calls made one after the other. -/
def requestAll (pool : Pool) : List TypeRequest → Pool
  | [] => pool
  | r :: rest => (pool.request r).2.requestAll rest

/-- What constructor calls made one after the other are answered with. -/
def answers (pool : Pool) : List TypeRequest → List TypeId
  | [] => []
  | r :: rest => (pool.request r).1 :: (pool.request r).2.answers rest

theorem Canonical.requestAll (canonical : pool.Canonical) (calls : List TypeRequest) :
    (pool.requestAll calls).Canonical := by
  induction calls generalizing pool with
  | nil => exact canonical
  | cons r rest ih => exact ih (canonical.request r)

/-- Calls leave what a pool holds as it is. -/
theorem Holds.requestAll (holds : pool.Holds id e) (calls : List TypeRequest) :
    (pool.requestAll calls).Holds id e := by
  induction calls generalizing pool with
  | nil => exact holds
  | cons r rest ih => exact ih (holds.mono (extends_intern pool r.expr))

/-- The pool that is left holds what each call asked for under the handle that the call was
answered with. -/
theorem Canonical.holds_answer (canonical : pool.Canonical) {calls : List TypeRequest} {i : Nat}
    (asked : calls[i]? = some r) :
    ∃ id, (pool.answers calls)[i]? = some id ∧ (pool.requestAll calls).Holds id r.expr := by
  induction calls generalizing pool i with
  | nil => simp at asked
  | cons first rest ih =>
    cases i with
    | zero =>
      obtain rfl : first = r := by simpa using asked
      exact ⟨_, rfl, (canonical.indexed.holds_intern first.regular).requestAll rest⟩
    | succ i => exact ih (canonical.request first) asked

/-- The constructor call that the accessors of a type spell out. -/
def respelled? (pool : Pool) (id : TypeId) : Option TypeRequest :=
  match pool.tag id with
  | .invalid => none
  | .primitive => return .primitive (← pool.primitiveName? id)
  | .pointer => return .pointer (← pool.pointerTarget? id)
  | .array =>
    match pool.arrayLength? id with
    | none => return .array (← pool.arrayElem? id)
    | some length => return .sizedArray (← pool.arrayElem? id) length
  | .function => return .function (← pool.functionResult? id) (pool.functionParams id)
  | .typeAlias =>
    return .typeAlias (← pool.nominalSymbol? id) (← pool.typeName? id) (← pool.aliasTarget? id)
  | .aggregate => return .aggregate (← pool.nominalSymbol? id) (← pool.typeName? id)

/-- The accessors of a type that was asked for spell out a call that asks for it. -/
theorem Holds.respelled? (holds : pool.Holds id r.expr) :
    ∃ q, pool.respelled? id = some q ∧ q.expr = r.expr := by
  have read := holds.expr_eq
  have tag := tag_eq_of_read holds.2
  cases r with
  | sizedArray elem length =>
    by_cases reserved : length = TypeRequest.unbounded
    · refine ⟨.array elem, ?_, by simp [TypeRequest.expr, reserved]⟩
      simp [Pool.respelled?, tag, arrayLength?, arrayElem?, read, TypeRequest.expr, TypeExpr.tag,
        reserved]
    · refine ⟨.sizedArray elem length, ?_, rfl⟩
      simp [Pool.respelled?, tag, arrayLength?, arrayElem?, read, TypeRequest.expr, TypeExpr.tag,
        reserved]
  | _ =>
    refine ⟨_, ?_, rfl⟩
    simp [Pool.respelled?, tag, primitiveName?, pointerTarget?, arrayLength?, arrayElem?,
      functionResult?, functionParams, nominalSymbol?, typeName?, aliasTarget?, read,
      TypeRequest.expr, TypeExpr.tag]

/-- A call is answered with a handle of the pool, which stays as it is, or with the next free
one, and the pool grows by that type. -/
theorem Indexed.request_cases (indexed : pool.Indexed) (r : TypeRequest) :
    (pool.contains (pool.request r).1 = true ∧ (pool.request r).2 = pool) ∨
      ((pool.request r).1 = ⟨pool.size⟩ ∧ (pool.request r).2.size = pool.size + 1 ∧
        ∀ id, pool.contains id = true → (pool.request r).2.expr id = pool.expr id) := by
  cases new : pool.find? r.expr with
  | some id =>
    rw [request, intern_of_found new]
    exact .inl ⟨((indexed.find?_iff r.regular).mp new).contains, rfl⟩
  | none =>
    refine .inr ⟨?_, ?_, fun id contained => ?_⟩
    · rw [request, intern_of_new new]
    · rw [request, intern_of_new new]
      exact Array.size_push _
    · exact ((indexed.holds_expr contained).mono (extends_intern pool r.expr)).expr_eq

/-- Two answers to calls of one run are equal just when the calls ask for the same type. -/
theorem Canonical.answers_eq_iff (canonical : pool.Canonical) {calls : List TypeRequest}
    {i j : Nat} (first : calls[i]? = some r) (second : calls[j]? = some q) :
    ∃ a b, (pool.answers calls)[i]? = some a ∧ (pool.answers calls)[j]? = some b ∧
      (a = b ↔ r.spelled = q.spelled) := by
  obtain ⟨a, answered, held⟩ := canonical.holds_answer first
  obtain ⟨b, answered', held'⟩ := canonical.holds_answer second
  refine ⟨a, b, answered, answered', ?_⟩
  rw [← TypeRequest.expr_eq_expr_iff]
  constructor
  · rintro rfl
    rw [← held.expr_eq, held'.expr_eq]
  · intro same
    rw [same] at held
    exact (canonical.requestAll calls).indexed.unique held held'

/-- The call that the accessors of a type spell out leads back to the type. -/
theorem Canonical.request_respelled (canonical : pool.Canonical)
    (contained : pool.contains id = true) (other : id ≠ .invalid) :
    ∃ r, pool.respelled? id = some r ∧ pool.request r = (id, pool) := by
  have held := canonical.indexed.holds_expr contained
  obtain ⟨r, asked⟩ := canonical.asked held other
  rw [asked] at held
  obtain ⟨q, respelled, same⟩ := held.respelled?
  refine ⟨q, respelled, intern_of_found ?_⟩
  rw [canonical.indexed.find?_iff q.regular, same]
  exact held

/-- Types are interned canonically, whatever constructor calls a pool has seen. A further
call is answered with a handle of the pool, which stays as it is, or with the next free one,
and the pool grows by that type. Two calls of a run have the same answer just when they are the
same call, an array of no fixed length being the array of the reserved length. And for every
type but the invalid one the call that its accessors spell out is answered with its handle
and changes nothing. -/
theorem interning_canonical (calls : List TypeRequest) :
    let pool := start.requestAll calls
    (∀ r, (pool.contains (pool.request r).1 = true ∧ (pool.request r).2 = pool) ∨
      ((pool.request r).1 = ⟨pool.size⟩ ∧ (pool.request r).2.size = pool.size + 1 ∧
        ∀ id, pool.contains id = true → (pool.request r).2.expr id = pool.expr id)) ∧
    (∀ (i j : Nat) (r q : TypeRequest), calls[i]? = some r → calls[j]? = some q →
      ∃ a b, (start.answers calls)[i]? = some a ∧ (start.answers calls)[j]? = some b ∧
        (a = b ↔ r.spelled = q.spelled)) ∧
    (∀ id, pool.contains id = true → id ≠ .invalid →
      ∃ r, pool.respelled? id = some r ∧ pool.request r = (id, pool)) := by
  have canonical := canonical_start.requestAll calls
  exact ⟨canonical.indexed.request_cases, fun i j r q => canonical_start.answers_eq_iff,
    fun id => canonical.request_respelled⟩

/-- Arrays and functions over a primitive type: the two ways to ask for an array of no fixed
length lead to one handle, and a function type is found again from its accessors. -/
theorem interning_canonical_arrays :
    let calls : List TypeRequest := [.primitive ⟨1⟩, .array ⟨1⟩,
      .sizedArray ⟨1⟩ TypeRequest.unbounded, .function ⟨1⟩ [⟨1⟩, ⟨2⟩], .sizedArray ⟨1⟩ 2]
    (∃ a b, (start.answers calls)[1]? = some a ∧ (start.answers calls)[2]? = some b ∧
      (a = b ↔ (TypeRequest.array ⟨1⟩).spelled =
        (TypeRequest.sizedArray ⟨1⟩ TypeRequest.unbounded).spelled)) ∧
    start.answers calls = [⟨1⟩, ⟨2⟩, ⟨2⟩, ⟨3⟩, ⟨4⟩] ∧
    (start.requestAll calls).contains ⟨3⟩ = true ∧
    (∃ r, (start.requestAll calls).respelled? ⟨3⟩ = some r ∧
      (start.requestAll calls).request r = (⟨3⟩, start.requestAll calls)) :=
  ⟨(interning_canonical _).2.1 1 2 _ _ rfl rfl, by decide +kernel, by decide +kernel,
    (interning_canonical _).2.2 ⟨3⟩ (by decide +kernel) (by decide)⟩

end Pool

end Scoping
