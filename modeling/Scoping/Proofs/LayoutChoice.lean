import Scoping.Proofs.Run
import Scoping.Proofs.TwinChanges

/-!
# The choice of the field layout

The field layout bears on the slots of fields alone. A run with the inherited layout and the
run of the same operations with the layout per class have the same outcomes, and pass through
tables that give the same answers, but for the slots of fields. The one exception is a field
that the inherited layout refuses because a superclass is missing.
-/

namespace Scoping

namespace Table

variable {t u v : Table} {s : ScopeId} {x : SymbolId} {ops : List Operation}

namespace Twin

/-- What a change comes to in two tables: it is refused for the same reason, or leads to
twins again. -/
inductive SameResult : Except Refusal Table → Except Refusal Table → Prop
  | refused (refusal : Refusal) : SameResult (.error refusal) (.error refusal)
  | changed {v w : Table} : Twin v w → SameResult (.ok v) (.ok w)

theorem SameResult.outcomeOf {result result' : Except Refusal Table} {outcome : Outcome}
    (same : SameResult result result') (twin : Twin t u)
    (reached : t.outcomeOf result = (outcome, v)) :
    ∃ w, u.outcomeOf result' = (outcome, w) ∧ Twin v w := by
  cases same with
  | refused =>
    cases reached
    exact ⟨u, rfl, twin⟩
  | changed after =>
    cases reached
    exact ⟨_, rfl, after⟩

theorem define (twin : Twin t u) (consistent : t.Consistent) {result : Except Refusal Table}
    (defined : t.define s x = .ok result)
    (admitted : t.kind x = .ok .field → ∀ m c p, result ≠ .error (.unresolvedSuperclass m c p)) :
    ∃ result', u.define s x = .ok result' ∧ SameResult result result' := by
  -- all checks come before the first change, so that they see twins
  obtain ⟨refusal, checked, defined⟩ := Answer.bind_eq_ok_iff.mp defined
  have checked' : u.refusal? s x = .ok refusal := by
    refine twin.refusal? checked fun field m c p missing => ?_
    subst missing
    cases defined
    exact admitted field m c p rfl
  rw [Table.define, checked', Answer.ok_bind]
  cases refusal with
  | some refusal =>
    cases defined
    exact ⟨_, rfl, .refused refusal⟩
  | none =>
    obtain ⟨a, c, admits⟩ := refusal?_eq_none checked
    obtain ⟨b, symbol', same⟩ := twin.symbol admits.symbol
    have scope' : u.scope s = .ok c := by rw [← twin.scope_eq, admits.scope]
    simp only [place_eq_ok admits.symbol admits.scope, Answer.ok_bind] at defined
    obtain ⟨v, assigned, defined⟩ := Answer.bind_eq_ok_iff.mp defined
    cases defined
    obtain ⟨w, assigned', after⟩ :=
      (twin.placed same).assignSlotIn (consistent.placed admits) assigned
    refine ⟨.ok w, ?_, .changed after⟩
    simp only [place_eq_ok symbol' scope', Answer.ok_bind, assigned', Answer.pure_eq_ok]

theorem nestRefusal?_eq (twin : Twin t u) : t.nestRefusal? = u.nestRefusal? := by
  funext parent child
  rw [nestRefusal?, nestRefusal?, twin.scope_eq, twin.symbolName_eq, twin.scopeName_eq]

theorem nest (twin : Twin t u) {parent child : ScopeId} {result : Except Refusal Table}
    (nested : t.nest parent child = .ok result) :
    ∃ result', u.nest parent child = .ok result' ∧ SameResult result result' := by
  rw [Table.nest, twin.nestRefusal?_eq, twin.scope_eq] at nested
  obtain ⟨refusal, checked, nested⟩ := Answer.bind_eq_ok_iff.mp nested
  rw [Table.nest, checked, Answer.ok_bind]
  cases refusal with
  | some refusal =>
    cases nested
    exact ⟨_, rfl, .refused refusal⟩
  | none =>
    obtain ⟨_, read, nested⟩ := Answer.bind_eq_ok_iff.mp nested
    cases nested
    simp only [read, Answer.ok_bind]
    exact ⟨_, rfl, .changed (twin.modifyScope parent _)⟩

theorem setType (twin : Twin t u) {type : TypeId} {result : Except Refusal Table}
    (set : t.setType x type = .ok result) :
    ∃ result', u.setType x type = .ok result' ∧ SameResult result result' := by
  obtain ⟨a, symbol, set⟩ := Answer.bind_eq_ok_iff.mp set
  obtain ⟨b, symbol', same⟩ := twin.symbol symbol
  obtain ⟨names, kinds, _⟩ := Symbol.shape_eq_iff.mp (Symbol.shape_eq_of_blurred same)
  rw [names, kinds, twin.nameText_eq] at set
  rw [Table.setType, symbol', Answer.ok_bind]
  split at set
  · rename_i typed
    rw [if_pos typed]
    cases set
    let f : Form → Form := (·.withDeclaredType type)
    have keeps : ∀ form, (f form).blurred = f form.blurred :=
      fun form => form.blurred_withDeclaredType type
    exact ⟨_, rfl, .changed (twin.modifyForm (f := f) (g := f) (h := f)
      (fun a _ => keeps a.form) fun b _ => keeps b.form)⟩
  · rename_i untyped
    rw [if_neg untyped]
    cases set
    exact ⟨_, rfl, .refused _⟩

theorem setDefSite (twin : Twin t u) {site : DefSite} (set : t.setDefSite x site = .ok v) :
    ∃ w, u.setDefSite x site = .ok w ∧ Twin v w := by
  rw [Table.setDefSite] at set
  cases symbol : t.symbol x with
  | error e =>
    rw [symbol] at set
    cases set
  | ok a =>
    rw [symbol] at set
    cases set
    obtain ⟨b, symbol', _⟩ := twin.symbol symbol
    refine ⟨_, by rw [Table.setDefSite, symbol']; rfl, ?_⟩
    exact twin.modifySymbol (h := ({ · with defSite := some site })) (fun _ _ => rfl)
      fun _ _ => rfl

theorem setTypeIndex (twin : Twin t u) {index : Nat} (set : t.setTypeIndex x index = .ok v) :
    ∃ w, u.setTypeIndex x index = .ok w ∧ Twin v w := by
  rw [Table.setTypeIndex, twin.asType?_eq] at set
  obtain ⟨type, read, set⟩ := Answer.bind_eq_ok_iff.mp set
  rw [Table.setTypeIndex, read, Answer.ok_bind]
  cases type with
  | none =>
    cases set
    exact ⟨u, rfl, twin⟩
  | some type =>
    cases set
    exact ⟨_, rfl, twin.numberType type index⟩

theorem openBlock (twin : Twin t u) {block : ScopeId} (opened : t.openBlock s = .ok (block, v)) :
    ∃ w, u.openBlock s = .ok (block, w) ∧ Twin v w := by
  obtain ⟨u₁, made, between⟩ := twin.openScope s
  rw [Table.openBlock] at opened ⊢
  simp only [between.scope_eq] at opened
  obtain ⟨_, read, opened⟩ := Answer.bind_eq_ok_iff.mp opened
  obtain ⟨rfl, rfl⟩ := Prod.mk.inj (Except.ok.inj opened)
  refine ⟨_, ?_, between.modifyScope s _⟩
  simp only [made, read, Answer.ok_bind, Answer.pure_eq_ok]

/-- Symbols that are made on the way are primitive types, so no field is defined. -/
theorem defineBuiltinsFrom {index : Nat} {names : List String}
    {outcome : Except Refusal (List SymbolId)} (twin : Twin t u) (consistent : t.Consistent)
    (defined : t.defineBuiltinsFrom index names = .ok (outcome, v)) :
    ∃ w, u.defineBuiltinsFrom index names = .ok (outcome, w) ∧ Twin v w := by
  induction names generalizing t u index outcome with
  | nil =>
    cases defined
    exact ⟨u, rfl, twin⟩
  | cons text rest ih =>
    obtain ⟨⟨x, t₁⟩, declared, defined⟩ := Answer.bind_eq_ok_iff.mp defined
    obtain ⟨result, placed, defined⟩ := Answer.bind_eq_ok_iff.mp defined
    obtain ⟨u₁, declared', twin₁⟩ := twin.declare declared
    have consistent₁ := consistent.declare declared
    have other : t₁.kind x ≠ .ok .field := by
      obtain ⟨rfl, _, name, form, pushed, fresh⟩ := declare_eq_ok declared
      rw [kind_of_symbol ((symbol_push_iff pushed).mpr (.inr ⟨rfl, rfl⟩)), Symbol.kind,
        fresh.kind]
      decide
    obtain ⟨result', placed', same⟩ :=
      twin₁.define consistent₁ placed fun field => absurd field other
    rw [Table.defineBuiltinsFrom, declared', Answer.ok_bind]
    simp only [placed', Answer.ok_bind]
    cases same with
    | refused refusal =>
      cases defined
      exact ⟨u₁, rfl, twin₁⟩
    | @changed t₂ u₂ twin₂ =>
      obtain ⟨t₃, numbered, defined⟩ := Answer.bind_eq_ok_iff.mp defined
      obtain ⟨⟨more, t₄⟩, remaining, defined⟩ := Answer.bind_eq_ok_iff.mp defined
      cases defined
      obtain ⟨u₃, numbered', twin₃⟩ := twin₂.setTypeIndex numbered
      have changes : Changes (fun _ => True) t₁ t₃ :=
        (Change.define placed fun _ _ => trivial).changes.trans (changes_of_setTypeIndex numbered)
      have consistent₃ := changes.keeps consistent₁ fun _ _ kept change => kept.change change
      obtain ⟨u₄, remaining', twin₄⟩ := ih twin₃ consistent₃ remaining
      refine ⟨u₄, ?_, twin₄⟩
      simp only [numbered', Answer.ok_bind, remaining', Answer.pure_eq_ok]

/-- An operation has the same outcome in both tables and leads to twins again, unless it
defines a field and this is refused because of a superclass. -/
theorem apply (twin : Twin t u) (consistent : t.Consistent) {op : Operation} {outcome : Outcome}
    (applied : t.apply op = .ok (outcome, v))
    (admitted : ∀ s x m c p, op = .define s x →
      outcome = .error (.unresolvedSuperclass m c p) → t.kind x ≠ .ok .field) :
    ∃ w, u.apply op = .ok (outcome, w) ∧ Twin v w := by
  cases op with
  | declare text spec =>
    obtain ⟨⟨x, t'⟩, declared, done⟩ := Answer.bind_eq_ok_iff.mp applied
    obtain ⟨w, declared', after⟩ := twin.declare declared
    cases done
    exact ⟨w, by rw [Table.apply, declared']; rfl, after⟩
  | openScope s =>
    obtain ⟨w, made, after⟩ := twin.openScope s
    cases applied
    exact ⟨w, by rw [Table.apply, made]; rfl, after⟩
  | openBlock s =>
    obtain ⟨⟨block, t'⟩, opened, done⟩ := Answer.bind_eq_ok_iff.mp applied
    obtain ⟨w, opened', after⟩ := twin.openBlock opened
    cases done
    exact ⟨w, by rw [Table.apply, opened']; rfl, after⟩
  | define s x =>
    obtain ⟨result, defined, done⟩ := Answer.bind_eq_ok_iff.mp applied
    obtain ⟨result', defined', same⟩ := twin.define consistent defined fun field m c p missing =>
      admitted s x m c p rfl (by subst missing; cases done; rfl) field
    obtain ⟨w, reached, after⟩ := same.outcomeOf twin (Except.ok.inj done)
    exact ⟨w, by rw [Table.apply, defined']; exact congrArg Except.ok reached, after⟩
  | defineBuiltins names =>
    obtain ⟨⟨result, t'⟩, defined, done⟩ := Answer.bind_eq_ok_iff.mp applied
    obtain ⟨w, defined', after⟩ := twin.defineBuiltinsFrom consistent defined
    cases done
    exact ⟨w, by rw [Table.apply, defineBuiltins, defined']; rfl, after⟩
  | nest parent child =>
    obtain ⟨result, nested, done⟩ := Answer.bind_eq_ok_iff.mp applied
    obtain ⟨result', nested', same⟩ := twin.nest nested
    obtain ⟨w, reached, after⟩ := same.outcomeOf twin (Except.ok.inj done)
    exact ⟨w, by rw [Table.apply, nested']; exact congrArg Except.ok reached, after⟩
  | setType x type =>
    obtain ⟨result, set, done⟩ := Answer.bind_eq_ok_iff.mp applied
    obtain ⟨result', set', same⟩ := twin.setType set
    obtain ⟨w, reached, after⟩ := same.outcomeOf twin (Except.ok.inj done)
    exact ⟨w, by rw [Table.apply, set']; exact congrArg Except.ok reached, after⟩
  | setDefSite x site =>
    obtain ⟨t', set, done⟩ := Answer.bind_eq_ok_iff.mp applied
    obtain ⟨w, set', after⟩ := twin.setDefSite set
    cases done
    exact ⟨w, by rw [Table.apply, set']; rfl, after⟩
  | setTypeIndex x index =>
    obtain ⟨t', set, done⟩ := Answer.bind_eq_ok_iff.mp applied
    obtain ⟨w, set', after⟩ := twin.setTypeIndex set
    cases done
    exact ⟨w, by rw [Table.apply, set']; rfl, after⟩
  | numberType type index =>
    cases applied
    exact ⟨_, rfl, twin.numberType type index⟩
  | intern text =>
    obtain ⟨w, made, after⟩ := twin.intern text
    cases applied
    exact ⟨w, by rw [Table.apply, made]; rfl, after⟩
  | requestType r =>
    obtain ⟨w, made, after⟩ := twin.requestType r
    cases applied
    exact ⟨w, by rw [Table.apply, made]; rfl, after⟩

end Twin

/-! ### Runs -/

theorem twin_new (config : Config) :
    Twin (.new config) (.new { config with fieldLayout := .perClass }) :=
  ⟨rfl, rfl, rfl, rfl, rfl⟩

/-- No operation is the definition of a field that is refused because of a superclass. -/
def FieldsAdmitted (t : Table) (ops : List Operation) : Prop :=
  ∀ i s x m c p, ops[i]? = some (.define s x) →
    ((t.stateAt ops i).apply (.define s x)).map Prod.fst =
      .ok (.error (.unresolvedSuperclass m c p)) →
    (t.stateAt ops i).kind x ≠ .ok .field

theorem Twin.proper_iff {op : Operation} (twin : Twin t u) : op.Proper t ↔ op.Proper u := by
  cases op <;> simp only [Operation.Proper, twin.alike.hasScope_iff, twin.alike.hasSymbol_iff]

/-- Twins stay twins through a run, and the outcomes are the same. -/
theorem Twin.run (twin : Twin t u) (reachable : t.Reachable) (accepts : t.Accepts ops)
    (admitted : t.FieldsAdmitted ops) : u.Accepts ops ∧
      (∃ outcomes, t.run ops = .ok (outcomes, t.stateAt ops ops.length) ∧
        u.run ops = .ok (outcomes, u.stateAt ops ops.length)) ∧
      ∀ i, Twin (t.stateAt ops i) (u.stateAt ops i) := by
  -- after the first operation there are twins again, and the rest is carried out on these
  induction ops generalizing t u with
  | nil => exact ⟨trivial, ⟨[], rfl, rfl⟩, fun i => by cases i <;> exact twin⟩
  | cons op ops ih =>
    obtain ⟨proper, outcome, v, applied, rest, later⟩ := accepts.step
    have start : t.stateAt (op :: ops) 0 = t := stateAt_zero
    obtain ⟨w, applied', after⟩ := twin.apply reachable.consistent applied <| by
      rintro s x m c p rfl rfl
      have admitted := admitted 0 s x m c p rfl
      rw [start, applied] at admitted
      exact admitted rfl
    have admitted' : v.FieldsAdmitted ops := by
      intro i s x m c p nth refused
      have admitted := admitted (i + 1) s x m c p nth
      rw [later] at admitted
      exact admitted refused
    have reached := reachable.steps (.step (.refl t) proper applied)
    obtain ⟨accepts', ⟨outcomes, ran, ran'⟩, twins⟩ := ih after reached rest admitted'
    have accepts'' : u.Accepts (op :: ops) := by
      rw [Accepts, applied']
      exact ⟨twin.proper_iff.mp proper, accepts'⟩
    have later' : ∀ i, u.stateAt (op :: ops) (i + 1) = w.stateAt ops i := by
      intro i
      rw [stateAt, applied']
    refine ⟨accepts'', ⟨outcome :: outcomes, ?_, ?_⟩, fun i => ?_⟩
    · rw [Table.run, applied, List.length_cons, later]
      simp only [Answer.ok_bind, ran, Answer.pure_eq_ok]
    · rw [Table.run, applied', List.length_cons, later']
      simp only [Answer.ok_bind, ran', Answer.pure_eq_ok]
    · cases i with
      | zero => rwa [stateAt_zero, stateAt_zero]
      | succ i =>
        rw [later, later']
        exact twins i

end Table

open Table

namespace Run

/-- The same operations can be carried out with the layout per class. Every operation has the
same outcome then, and the tables differ in the slots of fields alone. -/
theorem layout_bears_on_field_slots (r : Run)
    (admitted : (Table.new r.config).FieldsAdmitted r.operations) :
    ∃ q : Run, q.config = { r.config with fieldLayout := .perClass } ∧
      q.operations = r.operations ∧
      (∃ outcomes, (Table.new r.config).run r.operations = .ok (outcomes, r.final) ∧
        (Table.new q.config).run q.operations = .ok (outcomes, q.final)) ∧
      ∀ i, (r.state i).Twin (q.state i) ∧ SameAnswers (r.state i) (q.state i) := by
  obtain ⟨accepted, outcomes, twins⟩ :=
    (twin_new r.config).run (reachable_new r.config) r.accepted admitted
  exact ⟨⟨_, r.operations, accepted⟩, rfl, rfl, outcomes,
    fun i => ⟨twins i, (twins i).sameAnswers⟩⟩

/-- A class and a subclass with the inherited layout, each with fields and methods. A second
field of the same name is refused. -/
def twofold : Run where
  config := { fieldLayout := .inherited }
  operations := [
    .declare "A" (.classType none), .define .global ⟨0⟩,
    .declare "x" (.field none), .define ⟨2⟩ ⟨1⟩,
    .declare "m" (.method none), .define ⟨2⟩ ⟨2⟩,
    .declare "B" (.classType (some "A")), .define .global ⟨3⟩,
    .declare "y" (.field none), .define ⟨4⟩ ⟨4⟩,
    .declare "y" (.field none), .define ⟨4⟩ ⟨5⟩,
    .declare "n" (.method none), .define ⟨4⟩ ⟨6⟩]
  accepted := by decide +kernel

/-- The field of the subclass has the slot 1 with one layout and 0 with the other. -/
theorem layout_bears_on_field_slots_twofold :
    (Table.new twofold.config).FieldsAdmitted twofold.operations ∧
    ∃ q : Run, q.config.fieldLayout = .perClass ∧ q.operations = twofold.operations ∧
      SameAnswers twofold.final q.final ∧
      twofold.final.slot? ⟨4⟩ = .ok (some 1) ∧ q.final.slot? ⟨4⟩ = .ok (some 0) ∧
      q.final.slot? ⟨6⟩ = .ok (some 1) := by
  have codes : ∀ i < 14, ∀ op ∈ twofold.operations[i]?,
      (((twofold.state i).apply op).map Prod.fst).map (·.mapError Refusal.code) ≠
        .ok (.error "E2046") := by decide +kernel
  have admitted : (Table.new twofold.config).FieldsAdmitted twofold.operations := by
    intro i s x m c p nth refused _
    have within := (List.getElem?_eq_some_iff.mp nth).1
    exact codes i within _ nth (congrArg (Except.map (·.mapError Refusal.code)) refused)
  obtain ⟨q, config, operations, _, same⟩ := twofold.layout_bears_on_field_slots admitted
  have answers : SameAnswers twofold.final q.final := by
    rw [Run.final, Run.final, operations]
    exact (same _).2
  refine ⟨admitted, q, by rw [config], operations, answers, by decide +kernel, ?_, ?_⟩
  · rw [Run.final, Run.state, config, operations]
    decide +kernel
  · have slot : twofold.final.slot? ⟨6⟩ = .ok (some 1) := by decide +kernel
    rwa [answers.symbols.slot ⟨6⟩ .method (by decide +kernel) (by decide)] at slot

end Run

end Scoping
