import Scoping.Proofs.Answer
import Scoping.Types.Pool

/-!
# Rows of numbers

The rows of all types stand in one array, and a type is read from there by counting from
where its row begins. Adding a type writes its row behind the others, so what could be read
before is read as before, and the new row is read back as the type it was written for. In a
pool to which types are only ever added, no reading therefore goes beyond the array.
-/

namespace Scoping

namespace TypeExpr

/-- The type is one that constructor calls ask for: no array has the reserved length. -/
def Regular : TypeExpr → Prop
  | array _ length => length ≠ some TypeRequest.unbounded
  | _ => True

end TypeExpr

/-- A length is no fixed one where it is the reserved one. -/
theorem TypeExpr.regular_array (elem : TypeId) (length : Nat) :
    (array elem (if length = TypeRequest.unbounded then none else some length)).Regular := by
  intro reserved
  split at reserved
  · cases reserved
  · rename_i other
    exact other (Option.some.inj reserved)

theorem TypeRequest.regular (r : TypeRequest) : r.expr.Regular := by
  cases r with
  | array elem => exact (Option.some_ne_none _).symm
  | sizedArray elem length => exact TypeExpr.regular_array elem length
  | _ => trivial

namespace Pool

variable {pool later most : Pool} {id : TypeId} {d e : TypeExpr} {n k : Nat}

theorem contains_iff_lt : pool.contains id = true ↔ id.index < pool.items.size :=
  decide_eq_true_iff

/-- What is written in a pool is written at the same place in a later one. -/
structure Extends (pool later : Pool) : Prop where
  item : ∀ {i : Nat} {item}, pool.items[i]? = some item → later.items[i]? = some item
  mark : ∀ {i : Nat} {f}, pool.marks[i]? = some f → later.marks[i]? = some f
  extra : ∀ {i n : Nat}, pool.extra[i]? = some n → later.extra[i]? = some n

namespace Extends

theorem refl (pool : Pool) : Extends pool pool := ⟨id, id, id⟩

theorem trans (first : Extends pool later) (second : Extends later most) : Extends pool most :=
  ⟨fun read => second.item (first.item read), fun read => second.mark (first.mark read),
    fun read => second.extra (first.extra read)⟩

variable (ext : Extends pool later)
include ext

theorem item_eq (contained : pool.contains id = true) :
    later.items[id.index]? = pool.items[id.index]? := by
  have read := Array.getElem?_eq_getElem (contains_iff_lt.mp contained)
  rw [read, ext.item read]

theorem contains (contained : pool.contains id = true) : later.contains id = true := by
  have there := ext.item (Array.getElem?_eq_getElem (contains_iff_lt.mp contained))
  exact contains_iff_lt.mpr (Array.getElem?_eq_some_iff.mp there).1

theorem tag_eq (contained : pool.contains id = true) : later.tag id = pool.tag id := by
  rw [tag, tag, ext.item_eq contained]

theorem data_eq (contained : pool.contains id = true) : later.data id = pool.data id := by
  rw [data, data, ext.item_eq contained]

end Extends

theorem extraAt_eq_ok_iff : pool.extraAt id k = .ok n ↔
    pool.extra[pool.data id + k]? = some n := by
  rw [extraAt]
  split <;> simp_all

theorem Extends.extraAt (ext : Extends pool later) (contained : pool.contains id = true)
    (written : pool.extraAt id k = .ok n) : later.extraAt id k = .ok n := by
  rw [extraAt_eq_ok_iff] at written ⊢
  rw [ext.data_eq contained]
  exact ext.extra written

/-- A type is read in a later pool as it was read before. -/
theorem Extends.read (ext : Extends pool later) (contained : pool.contains id = true)
    (known : pool.read id = .ok e) : later.read id = .ok e := by
  have tag := ext.tag_eq contained
  have data := ext.data_eq contained
  have again : ∀ {k n}, pool.extraAt id k = .ok n → later.extraAt id k = .ok n :=
    ext.extraAt contained
  rw [Pool.read] at known ⊢
  rw [tag, data]
  cases kind : pool.tag id with
  | invalid => rwa [kind] at known
  | primitive => rwa [kind] at known
  | pointer => rwa [kind] at known
  | array =>
    rw [kind] at known
    obtain ⟨elem, first, known⟩ := Answer.bind_eq_ok_iff.mp known
    obtain ⟨length, second, known⟩ := Answer.bind_eq_ok_iff.mp known
    simp only [again first, again second, Answer.ok_bind]
    exact known
  | function =>
    rw [kind] at known
    obtain ⟨count, first, known⟩ := Answer.bind_eq_ok_iff.mp known
    obtain ⟨params, inside, known⟩ := Answer.bind_eq_ok_iff.mp known
    obtain ⟨result, last, known⟩ := Answer.bind_eq_ok_iff.mp known
    have inside' := Answer.mapM_eq_ok_of_imp inside fun i _ n written => again written
    simp only [again first, inside', again last, Answer.ok_bind]
    exact known
  | typeAlias =>
    rw [kind] at known
    obtain ⟨symbol, first, known⟩ := Answer.bind_eq_ok_iff.mp known
    obtain ⟨name, second, known⟩ := Answer.bind_eq_ok_iff.mp known
    obtain ⟨target, third, known⟩ := Answer.bind_eq_ok_iff.mp known
    simp only [again first, again second, again third, Answer.ok_bind]
    exact known
  | aggregate =>
    rw [kind] at known
    obtain ⟨symbol, first, known⟩ := Answer.bind_eq_ok_iff.mp known
    obtain ⟨name, second, known⟩ := Answer.bind_eq_ok_iff.mp known
    simp only [again first, again second, Answer.ok_bind]
    exact known

/-- What is read of a type has its tag. -/
theorem tag_eq_of_read (known : pool.read id = .ok e) : pool.tag id = e.tag := by
  rw [Pool.read] at known
  cases kind : pool.tag id with
  | array =>
    rw [kind] at known
    obtain ⟨elem, _, known⟩ := Answer.bind_eq_ok_iff.mp known
    obtain ⟨length, _, known⟩ := Answer.bind_eq_ok_iff.mp known
    cases known
    rfl
  | function =>
    rw [kind] at known
    obtain ⟨count, _, known⟩ := Answer.bind_eq_ok_iff.mp known
    obtain ⟨params, _, known⟩ := Answer.bind_eq_ok_iff.mp known
    obtain ⟨result, _, known⟩ := Answer.bind_eq_ok_iff.mp known
    cases known
    rfl
  | typeAlias =>
    rw [kind] at known
    obtain ⟨symbol, _, known⟩ := Answer.bind_eq_ok_iff.mp known
    obtain ⟨name, _, known⟩ := Answer.bind_eq_ok_iff.mp known
    obtain ⟨target, _, known⟩ := Answer.bind_eq_ok_iff.mp known
    cases known
    rfl
  | aggregate =>
    rw [kind] at known
    obtain ⟨symbol, _, known⟩ := Answer.bind_eq_ok_iff.mp known
    obtain ⟨name, _, known⟩ := Answer.bind_eq_ok_iff.mp known
    cases known
    rfl
  | _ =>
    rw [kind] at known
    cases known
    rfl

/-- No array is read with the reserved length. -/
theorem regular_of_read (known : pool.read id = .ok e) : e.Regular := by
  cases e with
  | array elem length =>
    have tag : pool.tag id = .array := tag_eq_of_read known
    rw [Pool.read, tag] at known
    obtain ⟨_, _, known⟩ := Answer.bind_eq_ok_iff.mp known
    obtain ⟨_, _, known⟩ := Answer.bind_eq_ok_iff.mp known
    cases known
    exact TypeExpr.regular_array _ _
  | _ => trivial

/-- A handle that was not given out reads as an invalid type. -/
theorem read_of_not_contains (foreign : pool.contains id = false) :
    pool.read id = .ok .invalid := by
  have beyond : pool.items.size ≤ id.index := Nat.le_of_not_lt (of_decide_eq_false foreign)
  have tag : pool.tag id = .invalid := by rw [Pool.tag, Array.getElem?_eq_none beyond]; rfl
  rw [read, tag]
  rfl

/-! ### A type that is added -/

theorem extends_add (pool : Pool) (e : TypeExpr) : Extends pool (pool.add e) where
  item read := by
    have before := (Array.getElem?_eq_some_iff.mp read).1
    rw [add, Array.getElem?_push, if_neg (Nat.ne_of_lt before)]
    exact read
  mark read := by
    have before := (Array.getElem?_eq_some_iff.mp read).1
    rw [add, Array.getElem?_push, if_neg (Nat.ne_of_lt before)]
    exact read
  extra read := by
    have before := (Array.getElem?_eq_some_iff.mp read).1
    rw [add]
    split
    · rw [Array.getElem?_append_left before]
      exact read
    · exact read

theorem contains_add : (pool.add e).contains id = true ↔
    id = ⟨pool.size⟩ ∨ pool.contains id = true := by
  rw [contains_iff_lt, contains_iff_lt, add, Array.size_push, TypeId.ext_iff]
  exact Nat.lt_succ_iff_lt_or_eq.trans or_comm

theorem tag_add_self (pool : Pool) (e : TypeExpr) : (pool.add e).tag ⟨pool.size⟩ = e.tag := by
  simp [tag, add, size]

theorem data_add_self (pool : Pool) (e : TypeExpr) :
    (pool.add e).data ⟨pool.size⟩ =
      if e.tag.hasRow then pool.extra.size else e.payload.headD 0 := by
  simp [data, add, size]

/-- The row of a new type is read number by number. -/
theorem extraAt_add_self (pool : Pool) (rowed : e.tag.hasRow = true)
    (there : e.payload[k]? = some n) : (pool.add e).extraAt ⟨pool.size⟩ k = .ok n := by
  have written : (pool.add e).extra = pool.extra ++ e.payload.toArray := if_pos rowed
  rw [extraAt_eq_ok_iff, data_add_self, if_pos rowed, written,
    Array.getElem?_append_right (Nat.le_add_right _ _), Nat.add_sub_cancel_left,
    List.getElem?_toArray, there]

/-- A new type is read as the type that was added. -/
theorem read_add_self (pool : Pool) (regular : e.Regular) :
    (pool.add e).read ⟨pool.size⟩ = .ok e := by
  rw [read, tag_add_self]
  have single := data_add_self pool e
  cases e with
  | invalid => rfl
  | primitive name => exact congrArg (fun n => Except.ok (TypeExpr.primitive ⟨n⟩)) single
  | pointer target => exact congrArg (fun n => Except.ok (TypeExpr.pointer ⟨n⟩)) single
  | array elem length =>
    have first := extraAt_add_self (e := .array elem length) pool rfl (k := 0) rfl
    have second := extraAt_add_self (e := .array elem length) pool rfl (k := 1) rfl
    simp only [TypeExpr.tag, first, second, Answer.ok_bind, Answer.pure_eq_ok]
    cases length with
    | none => rfl
    | some n =>
      have other : n ≠ TypeRequest.unbounded := fun same => regular (congrArg some same)
      rw [Option.getD_some, if_neg other]
  | function result params =>
    have first := extraAt_add_self (e := .function result params) pool rfl (k := 0) rfl
    have inside : (List.range params.length).mapM
        (fun i => (pool.add (.function result params)).extraAt ⟨pool.size⟩ (i + 1)) =
          .ok (params.map TypeId.index) := by
      have values : ∀ i ∈ List.range params.length,
          (pool.add (.function result params)).extraAt ⟨pool.size⟩ (i + 1) =
            .ok ((params.map TypeId.index)[i]?.getD 0) := by
        intro i within
        have small : i < (params.map TypeId.index).length := by simpa using within
        refine extraAt_add_self pool rfl ?_
        rw [TypeExpr.payload, List.cons_append, List.getElem?_cons_succ,
          List.getElem?_append_left small, List.getElem?_eq_getElem small, Option.getD_some]
      rw [Answer.mapM_eq_ok values]
      refine congrArg Except.ok (List.ext_getElem (by simp) fun i _ small => ?_)
      rw [List.getElem_map, List.getElem_range, List.getElem?_eq_getElem small, Option.getD_some]
    have last : (pool.add (.function result params)).extraAt ⟨pool.size⟩ (params.length + 1) =
        .ok result.index := extraAt_add_self pool rfl (by simp [TypeExpr.payload])
    have again : (params.map TypeId.index).map TypeId.mk = params := by
      rw [List.map_map]
      exact List.map_id params
    simp only [TypeExpr.tag, first, inside, last, again, Answer.ok_bind, Answer.pure_eq_ok]
  | typeAlias symbol name target =>
    have written := fun k n => extraAt_add_self (e := .typeAlias symbol name target) pool rfl
      (k := k) (n := n)
    simp only [TypeExpr.tag, written 0 _ rfl, written 1 _ rfl, written 2 _ rfl, Answer.ok_bind,
      Answer.pure_eq_ok]
  | aggregate symbol name =>
    have written := fun k n => extraAt_add_self (e := .aggregate symbol name) pool rfl
      (k := k) (n := n)
    simp only [TypeExpr.tag, written 0 _ rfl, written 1 _ rfl, Answer.ok_bind, Answer.pure_eq_ok]

/-- Types that are looked up in the same way are stored in the same way. -/
theorem add_congr (pool : Pool) (same : d.key = e.key) :
    (pool.add d).items = (pool.add e).items ∧ (pool.add d).extra = (pool.add e).extra := by
  obtain ⟨tags, payloads⟩ := PoolKey.mk.inj same
  simp only [add, tags, payloads, and_self]

/-- Pools in which the same is stored are read in the same way. -/
theorem read_congr (items : pool.items = later.items) (extra : pool.extra = later.extra) :
    pool.read = later.read := by
  funext id
  have tag : pool.tag id = later.tag id := by rw [Pool.tag, Pool.tag, items]
  have data : pool.data id = later.data id := by rw [Pool.data, Pool.data, items]
  have written : pool.extraAt id = later.extraAt id := by
    funext k
    rw [Pool.extraAt, Pool.extraAt, data, extra]
  rw [Pool.read, Pool.read, tag, data, written]

/-- Different types are looked up in different ways, as what is stored is read back. -/
theorem eq_of_key_eq (first : d.Regular) (second : e.Regular) (same : d.key = e.key) : d = e := by
  obtain ⟨items, extra⟩ := add_congr empty same
  have read := read_add_self empty first
  rw [read_congr items extra, read_add_self empty second] at read
  exact (Except.ok.inj read).symm

/-- Every type of the pool has its flags, and nothing is read beyond the rows. -/
structure Laid (pool : Pool) : Prop where
  marked : pool.marks.size = pool.items.size
  readable : ∀ id, ∃ e, pool.read id = .ok e

namespace Laid

theorem read_eq (laid : pool.Laid) (id : TypeId) : pool.read id = .ok (pool.expr id) := by
  obtain ⟨e, known⟩ := laid.readable id
  rw [expr, known]

theorem add (laid : pool.Laid) (regular : e.Regular) : (pool.add e).Laid := by
  refine ⟨?_, fun id => ?_⟩
  · rw [Pool.add, Array.size_push, Array.size_push, laid.marked]
  · cases given : pool.contains id with
    | true =>
      obtain ⟨d, known⟩ := laid.readable id
      exact ⟨d, (extends_add pool e).read given known⟩
    | false =>
      by_cases last : id = ⟨pool.size⟩
      · exact ⟨e, last ▸ read_add_self pool regular⟩
      · refine ⟨.invalid, read_of_not_contains (Bool.eq_false_iff.mpr fun there => ?_)⟩
        rcases contains_add.mp there with new | old
        · exact last new
        · rw [old] at given
          cases given

end Laid

theorem laid_empty : empty.Laid :=
  ⟨rfl, fun id => ⟨.invalid, read_of_not_contains (decide_eq_false (Nat.not_lt_zero id.index))⟩⟩

end Pool

end Scoping
