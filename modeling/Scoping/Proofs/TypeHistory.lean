import Mathlib.Data.List.Induction
import Mathlib.Logic.Relation
import Scoping.Proofs.Canonical
import Scoping.Proofs.Naming

/-!
# Histories of types

A pool grows by constructor calls, a code generator numbers its types, and the names beside
it grow as well. None of these calls takes anything back. Every type but the invalid one was
added by one call of the history, and its handle tells how many types there were before it.
-/

namespace Scoping

/-- A pool and the names that its types are written with. -/
structure TypeStore where
  pool : Pool
  names : Names

/-- A call on a pool or on the names beside it. -/
inductive TypeCall
  | request (r : TypeRequest)
  | number (type : TypeId) (index : Nat)
  | intern (text : String)
deriving DecidableEq

namespace TypeExpr

/-- The names that a type mentions. -/
def names : TypeExpr → List Name
  | primitive name | typeAlias _ name _ | aggregate _ name => [name]
  | _ => []

end TypeExpr

namespace Pool

variable {pool later : Pool} {t u : TypeId} {e : TypeExpr} {r : TypeRequest}

/-- The first type is made of the second: it points to it, or has it as its element, as a
parameter, as its result, or as its target. -/
def Part (pool : Pool) (t u : TypeId) : Prop :=
  pool.pointerTarget? t = some u ∨ pool.arrayElem? t = some u ∨ u ∈ pool.functionParams t ∨
    pool.functionResult? t = some u ∨ pool.aliasTarget? t = some u

/-- The second type occurs in the first one, at some depth or as the type itself. -/
def Reaches (pool : Pool) : TypeId → TypeId → Prop := Relation.ReflTransGen pool.Part

theorem part_iff : pool.Part t u ↔ u ∈ (pool.expr t).children := by
  unfold Part pointerTarget? arrayElem? functionParams functionResult? aliasTarget?
  cases pool.expr t <;> simp [TypeExpr.children, eq_comm]

theorem contains_of_part (part : pool.Part t u) : pool.contains t = true := by
  rw [part_iff] at part
  cases given : pool.contains t with
  | true => rfl
  | false =>
    rw [expr, read_of_not_contains given] at part
    simp [TypeExpr.children] at part

theorem holds_invalid_start : start.Holds .invalid .invalid :=
  indexed_empty.holds_intern (e := .invalid) trivial

/-- A new type has the flags that were worked out for it. -/
theorem Laid.flags_add_self (laid : pool.Laid) (e : TypeExpr) :
    (pool.add e).flags ⟨pool.size⟩ = pool.flagsOf e := by
  rw [flags, size, ← laid.marked, Pool.add, Array.getElem?_push_size]
  rfl

theorem Laid.flags_eq (laid : pool.Laid) (ext : Extends pool later)
    (contained : pool.contains t = true) : later.flags t = pool.flags t := by
  have marked : t.index < pool.marks.size := laid.marked ▸ contains_iff_lt.mp contained
  have known := Array.getElem?_eq_getElem marked
  rw [flags, flags, known, ext.mark known]

end Pool

namespace TypeStore

variable {st later : TypeStore} {l : List TypeCall} {c : TypeCall} {r : TypeRequest}
  {id u v : TypeId} {i : Nat}

/-- The invalid type and the empty name. -/
def start : TypeStore := ⟨.start, .start⟩

/-- Answer a call. -/
def call (st : TypeStore) : TypeCall → TypeStore
  | .request r => { st with pool := (st.pool.request r).2 }
  | .number type index => { st with pool := st.pool.setTypeIndex type index }
  | .intern text => { st with names := (st.names.intern text).2 }

/-- Answer calls one after the other. -/
def calls (st : TypeStore) (l : List TypeCall) : TypeStore := l.foldl call st

theorem calls_append (st : TypeStore) (l rest : List TypeCall) :
    st.calls (l ++ rest) = (st.calls l).calls rest := List.foldl_append

/-- What stands in a store still stands in a later one. -/
structure Keeps (st later : TypeStore) : Prop where
  pool : Pool.Extends st.pool later.pool
  names : st.names.Extends later.names

/-- Types and names are found under the handles that were given out for them. -/
structure Sound (st : TypeStore) : Prop where
  canonical : st.pool.Canonical
  named : st.names.lexicon.Sound

theorem sound_start : start.Sound := ⟨Pool.canonical_start, Names.sound_start⟩

theorem Sound.call (sound : st.Sound) (c : TypeCall) : (st.call c).Sound := by
  cases c with
  | request r => exact ⟨sound.canonical.request r, sound.named⟩
  | number type index => exact ⟨sound.canonical.number type index, sound.named⟩
  | intern text => exact ⟨sound.canonical, sound.named.add text⟩

theorem keeps_call (st : TypeStore) (c : TypeCall) : st.Keeps (st.call c) := by
  cases c with
  | request r => exact ⟨Pool.extends_intern st.pool r.expr, .refl _⟩
  | number type index => exact ⟨⟨id, id, id⟩, .refl _⟩
  | intern text => exact ⟨.refl _, st.names.extends_intern text⟩

theorem Sound.calls (sound : st.Sound) (l : List TypeCall) : (st.calls l).Sound := by
  induction l generalizing st with
  | nil => exact sound
  | cons c l ih => exact ih (sound.call c)

theorem keeps_calls (st : TypeStore) (l : List TypeCall) : st.Keeps (st.calls l) := by
  induction l generalizing st with
  | nil => exact ⟨.refl _, .refl _⟩
  | cons c l ih =>
    have first := st.keeps_call c
    have further := ih (st.call c)
    exact ⟨first.pool.trans further.pool, first.names.trans further.names⟩

/-- What stood in a store at some call still stands there after all calls. -/
theorem keeps_take (l : List TypeCall) (i : Nat) :
    (start.calls (l.take i)).Keeps (start.calls l) := by
  have further := (start.calls (l.take i)).keeps_calls (l.drop i)
  rwa [← calls_append, List.take_append_drop] at further

theorem holds_invalid (l : List TypeCall) : (start.calls l).pool.Holds .invalid .invalid :=
  Pool.holds_invalid_start.mono (start.keeps_calls l).pool

/-- The call of the history by which the type came into the pool. -/
structure Added (l : List TypeCall) (id : TypeId) (i : Nat) (r : TypeRequest) : Prop where
  call : l[i]? = some (.request r)
  before : (start.calls (l.take i)).pool.size = id.index
  answer : ((start.calls (l.take i)).pool.request r).1 = id
  holds : (start.calls l).pool.Holds id r.expr
  flags : (start.calls l).pool.flags id = (start.calls (l.take i)).pool.flagsOf r.expr

/-- Later calls do not change how a type came into the pool. -/
theorem Added.append (added : Added l id i r) (rest : List TypeCall) :
    Added (l ++ rest) id i r := by
  have within : i < l.length := (List.getElem?_eq_some_iff.mp added.call).1
  have same : (l ++ rest).take i = l.take i := List.take_append_of_le_length (Nat.le_of_lt within)
  have keeps := (start.calls l).keeps_calls rest
  have laid := (sound_start.calls l).canonical.indexed.laid
  refine ⟨?_, same ▸ added.before, same ▸ added.answer, ?_, ?_⟩
  · rw [List.getElem?_append_left within, added.call]
  · rw [calls_append]
    exact added.holds.mono keeps.pool
  · rw [calls_append, same, laid.flags_eq keeps.pool added.holds.contains, added.flags]

/-- Every type but the invalid one was added by a call. -/
theorem exists_added (l : List TypeCall) (contained : (start.calls l).pool.contains id = true)
    (other : id ≠ .invalid) : ∃ i r, Added l id i r := by
  induction l using List.reverseRecOn with
  | nil =>
    have first : id.index < 1 := Pool.contains_iff_lt.mp contained
    exact absurd (TypeId.ext (Nat.lt_one_iff.mp first)) other
  | append_singleton l c ih =>
    -- what the call left alone was added before
    have earlier : (start.calls l).pool.contains id = true → ∃ i r, Added (l ++ [c]) id i r := by
      intro old
      obtain ⟨i, r, added⟩ := ih old
      exact ⟨i, r, added.append [c]⟩
    have last : start.calls (l ++ [c]) = (start.calls l).call c := calls_append start l [c]
    rw [last] at contained
    cases c with
    | number type index => exact earlier contained
    | intern text => exact earlier contained
    | request r =>
      cases new : (start.calls l).pool.find? r.expr with
      | some old =>
        rw [call, Pool.request, Pool.intern_of_found new] at contained
        exact earlier contained
      | none =>
        have made : (start.calls l).pool.request r =
            (⟨(start.calls l).pool.size⟩, (start.calls l).pool.add r.expr) :=
          Pool.intern_of_new new
        rw [call, made, Pool.contains_add] at contained
        rcases contained with rfl | old
        · have laid := (sound_start.calls l).canonical.indexed.laid
          have prior : (l ++ [TypeCall.request r]).take l.length = l := by simp
          refine ⟨l.length, r, by simp, by rw [prior], by rw [prior, made], ?_, ?_⟩
          · rw [last, call, made]
            exact (laid.holds_add r.regular).mpr (.inl ⟨rfl, rfl⟩)
          · rw [last, call, made, prior]
            exact laid.flags_add_self r.expr
        · exact earlier old

/-- The invalid type is made of nothing. -/
theorem not_part_invalid : ¬ (start.calls l).pool.Part .invalid u := by
  rw [Pool.part_iff, (holds_invalid l).expr_eq]
  exact List.not_mem_nil

/-- Every call of the history that was answered with the type made it of types of the pool. -/
def Grounded (l : List TypeCall) (id : TypeId) : Prop :=
  ∀ i r, l[i]? = some (.request r) → ((start.calls (l.take i)).pool.request r).1 = id →
    ∀ c ∈ r.expr.children, (start.calls (l.take i)).pool.contains c = true

/-- A type that was made of types of the pool is made of older ones. -/
theorem Added.part_before (added : Added l id i r) (grounded : Grounded l id)
    (part : (start.calls l).pool.Part id u) :
    (start.calls (l.take i)).pool.contains u = true ∧ u.index < id.index := by
  rw [Pool.part_iff, added.holds.expr_eq] at part
  have there := grounded i r added.call added.answer u part
  have before : u.index < (start.calls (l.take i)).pool.size := Pool.contains_iff_lt.mp there
  rw [added.before] at before
  exact ⟨there, before⟩

theorem Grounded.part_before (grounded : Grounded l id)
    (contained : (start.calls l).pool.contains id = true)
    (part : (start.calls l).pool.Part id u) :
    (start.calls l).pool.contains u = true ∧ u.index < id.index := by
  by_cases first : id = .invalid
  · exact absurd (first ▸ part) not_part_invalid
  · obtain ⟨i, r, added⟩ := exists_added l contained first
    obtain ⟨there, before⟩ := added.part_before grounded part
    exact ⟨(keeps_take l i).pool.contains there, before⟩

section Reached

variable (grounded : ∀ u, (start.calls l).pool.Reaches id u → Grounded l u)
  (contained : (start.calls l).pool.contains id = true)
include grounded contained

/-- Everything that occurs in a type of the pool is in the pool. -/
theorem contains_of_reaches (reaches : (start.calls l).pool.Reaches id u) :
    (start.calls l).pool.contains u = true := by
  induction reaches with
  | refl => exact contained
  | tail reaches part ih => exact ((grounded _ reaches).part_before ih part).1

theorem index_lt_of_occurs (reaches : (start.calls l).pool.Reaches id u)
    (occurs : Relation.TransGen (start.calls l).pool.Part u v) : v.index < u.index := by
  induction occurs with
  | single part =>
    have there := contains_of_reaches grounded contained reaches
    exact ((grounded u reaches).part_before there part).2
  | tail occurs part ih =>
    have further := reaches.trans occurs.to_reflTransGen
    have there := contains_of_reaches grounded contained further
    exact Nat.lt_trans ((grounded _ further).part_before there part).2 ih

end Reached

end TypeStore

end Scoping
