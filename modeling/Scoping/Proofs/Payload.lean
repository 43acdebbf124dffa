import Scoping.Proofs.TypeText

/-!
# What the accessors of a type answer

The accessors of a type give back what its constructor call was given, and the accessors of
other tags answer with nothing. No later call changes this, nor the flags of the type, since
what a pool holds is never written again. The text of a type is kept as well, if everything
it is put together from was there when it was used: then a type is made of older types, so
none occurs in itself.
-/

namespace Scoping

/-- What the accessors of a type answer. -/
structure Readings where
  tag : Tag
  primitiveName : Option Name := none
  typeName : Option Name := none
  pointerTarget : Option TypeId := none
  arrayElem : Option TypeId := none
  arrayLength : Option Nat := none
  functionResult : Option TypeId := none
  functionParams : List TypeId := []
  nominalSymbol : Option SymbolId := none
  aliasTarget : Option TypeId := none
deriving DecidableEq

/-- What was given to a constructor call, at the accessors that tell it. -/
def TypeRequest.readings : TypeRequest → Readings
  | primitive name => { tag := .primitive, primitiveName := name, typeName := name }
  | pointer target => { tag := .pointer, pointerTarget := target }
  | array elem => { tag := .array, arrayElem := elem }
  | sizedArray elem length =>
    { tag := .array
      arrayElem := elem
      arrayLength := if length = unbounded then none else some length }
  | function result params =>
    { tag := .function, functionResult := result, functionParams := params }
  | typeAlias symbol name target =>
    { tag := .typeAlias, nominalSymbol := symbol, typeName := name, aliasTarget := target }
  | aggregate symbol name => { tag := .aggregate, nominalSymbol := symbol, typeName := name }

namespace Pool

variable {pool : Pool} {id : TypeId} {r : TypeRequest}

/-- What all accessors answer for a handle. -/
def readings (pool : Pool) (id : TypeId) : Readings where
  tag := pool.tag id
  primitiveName := pool.primitiveName? id
  typeName := pool.typeName? id
  pointerTarget := pool.pointerTarget? id
  arrayElem := pool.arrayElem? id
  arrayLength := pool.arrayLength? id
  functionResult := pool.functionResult? id
  functionParams := pool.functionParams id
  nominalSymbol := pool.nominalSymbol? id
  aliasTarget := pool.aliasTarget? id

/-- The accessors of a type that was asked for tell what the call was given. -/
theorem Holds.readings (holds : pool.Holds id r.expr) : pool.readings id = r.readings := by
  rw [Pool.readings, tag_eq_of_read holds.2, primitiveName?, typeName?, pointerTarget?,
    arrayElem?, arrayLength?, functionResult?, functionParams, nominalSymbol?, aliasTarget?,
    holds.expr_eq]
  cases r <;> rfl

end Pool

namespace TypeStore

variable {l : List TypeCall} {id : TypeId}

/-- Every call of the history that was answered with the type used names that were there. -/
def Named (l : List TypeCall) (id : TypeId) : Prop :=
  ∀ i r, l[i]? = some (.request r) → ((start.calls (l.take i)).pool.request r).1 = id →
    ∀ n ∈ r.expr.names, ∃ s, (start.calls (l.take i)).names.Reads n s

/-- The names that a type mentions are still there. -/
theorem Named.reads (named : Named l id) (contained : (start.calls l).pool.contains id = true) :
    ∀ n ∈ ((start.calls l).pool.expr id).names, ∃ s, (start.calls l).names.Reads n s := by
  by_cases first : id = .invalid
  · rw [first, (holds_invalid l).expr_eq]
    exact fun n => List.not_mem_nil.elim
  · obtain ⟨i, r, added⟩ := exists_added l contained first
    rw [added.holds.expr_eq]
    intro n member
    obtain ⟨s, reads⟩ := named i r added.call added.answer n member
    exact ⟨s, (keeps_take l i).names.reads reads⟩

/-- Payloads decode to what was encoded, for ever. Whatever calls were made before, the
accessors of the type that a constructor call is answered with give back what the call was
given, and nothing at the accessors of other tags; and whatever calls are made later, they
answer the same, and the flags are the same. No handle at all is read beyond the rows of the
pool. And if all that occurs in the type was there when it was used, then the type has a
text, and it is the same later. -/
theorem payload_decoded (before : List TypeCall) (r : TypeRequest) (later : List TypeCall) :
    let st := start.calls before
    let id := (st.pool.request r).1
    let made := st.call (.request r)
    let final := made.calls later
    made.pool.readings id = r.readings ∧ final.pool.readings id = r.readings ∧
    final.pool.flags id = made.pool.flags id ∧
    (∀ u, ∃ e, final.pool.read u = .ok e) ∧
    ((∀ u, made.pool.Reaches id u →
        Grounded (before ++ [.request r]) u ∧ Named (before ++ [.request r]) u) →
      ∃ text, made.pool.write made.names id = .ok text ∧
        final.pool.write final.names id = .ok text) := by
  intro st id made final
  have sound : st.Sound := sound_start.calls before
  have keeps : made.Keeps final := made.keeps_calls later
  have held : made.pool.Holds id r.expr := sound.canonical.indexed.holds_intern r.regular
  have laid := (sound.call (.request r)).canonical.indexed.laid
  refine ⟨held.readings, (held.mono keeps.pool).readings, laid.flags_eq keeps.pool held.contains,
    ((sound.call (.request r)).calls later).canonical.indexed.laid.readable, fun supplied => ?_⟩
  have same : made = start.calls (before ++ [.request r]) :=
    (calls_append start before [.request r]).symm
  have contained := held.contains
  rw [same] at supplied contained
  have grounded := fun u reaches => (supplied u reaches).1
  have ends : ¬ (start.calls (before ++ [.request r])).pool.Endless id := by
    rintro ⟨u, reaches, loops⟩
    exact Nat.lt_irrefl _ (index_lt_of_occurs grounded contained reaches loops)
  have known : (start.calls (before ++ [.request r])).pool.Known
      (start.calls (before ++ [.request r])).names id := by
    intro u reaches
    have there := contains_of_reaches grounded contained reaches
    exact ⟨there, (supplied u reaches).2.reads there⟩
  rw [← same] at ends known
  obtain ⟨text, written⟩ := laid.exists_write made.names ends
  exact ⟨text, written, known.write keeps.pool keeps.names written⟩

/-- A function type of two parameters, before and after a pointer to it was made. -/
theorem payload_decoded_function :
    let before : List TypeCall := [.intern "int", .request (.primitive ⟨1⟩)]
    let r : TypeRequest := .function ⟨1⟩ [⟨1⟩, ⟨0⟩]
    let made := (start.calls before).call (.request r)
    let final := made.calls [.request (.pointer ⟨2⟩), .number ⟨2⟩ 7, .intern "x"]
    (∀ u, made.pool.Reaches ⟨2⟩ u →
      Grounded (before ++ [.request r]) u ∧ Named (before ++ [.request r]) u) ∧
    final.pool.readings ⟨2⟩ = r.readings ∧
    ∃ text, made.pool.write made.names ⟨2⟩ = .ok text ∧
      final.pool.write final.names ⟨2⟩ = .ok text := by
  intro before r made final
  have answered : ((start.calls before).pool.request r).1 = ⟨2⟩ := by decide +kernel
  have decoded := payload_decoded before r
    [.request (.pointer ⟨2⟩), .number ⟨2⟩ 7, .intern "x"]
  simp only [answered] at decoded
  have supplied : ∀ u, made.pool.Reaches ⟨2⟩ u →
      Grounded (before ++ [.request r]) u ∧ Named (before ++ [.request r]) u := by
    refine fun u _ => ⟨fun i q asked _ => ?_, fun i q asked _ => ?_⟩
    · match i, asked with
      | 1, asked =>
        cases asked
        exact fun c => List.not_mem_nil.elim
      | 2, asked =>
        cases asked
        decide +kernel
    · match i, asked with
      | 1, asked =>
        cases asked
        have reads := Names.reads_intern Names.sound_start "int"
        exact fun n member => ⟨"int", List.mem_singleton.mp member ▸ reads⟩
      | 2, asked =>
        cases asked
        exact fun n => List.not_mem_nil.elim
  exact ⟨supplied, decoded.2.1, decoded.2.2.2.2 supplied⟩

end TypeStore

end Scoping
