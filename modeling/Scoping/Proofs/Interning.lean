import Scoping.Proofs.Admission

/-!
# Names tell strings apart

Names are compared by their numbers only. That this is the same as to compare strings holds
for any interner, however its strings came in, and so for the names of every table: symbols
have equal names just when they are called alike, and a scope takes no two such symbols.
-/

namespace Scoping

namespace Names

variable {names more : Names} {m n : Name} {s r : String}

/-- What is known of every interner. Of the later interners any may be looked at. -/
structure Faithful (names : Names) : Prop where
  /-- A name is given out for the string. -/
  text_intern : ∀ s, (names.intern s).2.text (names.intern s).1 = s
  /-- Two strings have one name just when they are the same. -/
  same_name : ∀ s r more, Interned (names.intern s).2 more →
    ((more.intern r).1 = (names.intern s).1 ↔ r = s)
  /-- A string is found under the name that has it. -/
  found : ∀ s n, names.find? s = some n ↔ n.index < names.size ∧ names.text n = s
  /-- The empty string comes first. -/
  empty : names.find? "" = some .empty
  /-- A string that was interned before changes nothing. -/
  again : ∀ s more, Interned (names.intern s).2 more → more.intern s = ((names.intern s).1, more)
  /-- A new string takes the next number. -/
  fresh : ∀ s, names.find? s = none →
    (names.intern s).1 = ⟨names.size⟩ ∧ (names.intern s).2.size = names.size + 1
  /-- While there are numbers left, the checked interning is not refused. -/
  checked : ∀ s, names.size ≤ Overflow.limit → names.tryIntern s = .ok (names.intern s)
  /-- A name keeps its string. -/
  stays : ∀ n more, Interned names more → n.index < names.size →
    n.index < more.size ∧ more.text n = names.text n

theorem reads_iff : names.Reads n s ↔ n.index < names.size ∧ names.text n = s := by
  rw [Reads, text, size, Lexicon.size, Lexicon.get?]
  constructor
  · intro held
    exact ⟨(Array.getElem?_eq_some_iff.mp held).1, by rw [held]; rfl⟩
  · rintro ⟨short, rfl⟩
    rw [Array.getElem?_eq_getElem short]
    rfl

/-- Names for which strings were given out are equal just when the strings are. -/
theorem eq_iff_of_reads (sound : names.lexicon.Sound) (first : names.Reads m s)
    (second : names.Reads n r) : m = n ↔ s = r := by
  constructor
  · rintro rfl
    exact first.text.symm.trans second.text
  · rintro rfl
    have found := (find?_eq_some_iff sound).mpr first
    exact Option.some.inj (found.symm.trans ((find?_eq_some_iff sound).mpr second))

theorem intern_of_find?_eq_none (new : names.find? s = none) :
    names.intern s = (⟨names.size⟩, ⟨names.lexicon.strings.push s,
      names.lexicon.ids.insert s names.size⟩) := by
  rw [intern, Lexicon.add_of_new (Option.map_eq_none_iff.mp new)]
  rfl

theorem tryIntern_of_le (room : names.size ≤ Overflow.limit) :
    names.tryIntern s = .ok (names.intern s) := by
  rw [tryIntern, if_neg]
  exact fun full => Nat.not_lt.mpr room full.2

theorem reads_empty : start.Reads .empty "" := Lexicon.sound_empty.get?_add_self ""

/-- Every interner is faithful, in whatever order and by whichever call strings came to it. -/
theorem Interned.faithful (interned : Interned start names) : names.Faithful := by
  have sound := interned.extends.sound sound_start
  have later : ∀ {s more}, Interned (names.intern s).2 more →
      more.lexicon.Sound ∧ more.Reads (names.intern s).1 s := fun {s _} run =>
    ⟨run.extends.sound ((names.extends_intern s).sound sound),
      run.extends.reads (reads_intern sound s)⟩
  constructor
  case text_intern => exact fun s => (reads_intern sound s).text
  case same_name =>
    intro s r more run
    obtain ⟨sound', held⟩ := later run
    have held' := (more.extends_intern r).reads held
    exact eq_iff_of_reads ((more.extends_intern r).sound sound') (reads_intern sound' r) held'
  case found => exact fun s n => (find?_eq_some_iff sound).trans reads_iff
  case empty => exact (find?_eq_some_iff sound).mpr (interned.extends.reads reads_empty)
  case again =>
    intro s more run
    obtain ⟨sound', held⟩ := later run
    exact intern_of_reads sound' held
  case fresh =>
    intro s new
    rw [intern_of_find?_eq_none new]
    exact ⟨rfl, Array.size_push _⟩
  case checked => exact fun s => tryIntern_of_le
  case stays =>
    intro n more run given
    exact reads_iff.mp (run.extends.reads (reads_iff.mpr ⟨given, rfl⟩))

end Names

namespace Table

variable {t u : Table} {x y : SymbolId} {s : ScopeId} {text : String} {l : List SymbolId}
  {kinds : Kind → Prop}

theorem interned_change (change : Change kinds t u) : t.names.Interned u.names := by
  cases change with
  | intern text => exact t.names.interned_intern text
  | declare declared => exact (declare_names declared).1
  | define defined _ =>
    obtain ⟨a, c, _, assigned⟩ := define_eq_ok defined
    obtain ⟨symbols, rfl, _⟩ := assignSlotIn_unnumbered assigned
    rw [show ({ t.placed _ _ a c with symbols } : Table).names = t.names from names_placed]
    exact .refl _
  | _ => exact .refl _

/-- The names of a table came in one after the other. -/
theorem Reachable.interned (reachable : t.Reachable) : Names.start.Interned t.names :=
  reachable.keeps (P := fun t => Names.start.Interned t.names) (fun _ => .refl _)
    fun _ _ interned change => interned.trans (interned_change change)

/-- Symbols have the same name just when they are called alike. -/
theorem Named.symbolsEqual_eq (named : t.Named) {p q : String} (here : t.symbolName x = .ok p)
    (there : t.symbolName y = .ok q) : t.symbolsEqual x y = .ok (p == q) := by
  obtain ⟨a, symbol, reads⟩ := named.symbolName_eq_ok_iff.mp here
  obtain ⟨b, symbol', reads'⟩ := named.symbolName_eq_ok_iff.mp there
  have equal : t.symbolsEqual x y = .ok (a.name == b.name) := by
    rw [symbolsEqual, name, name, symbol, symbol']
    rfl
  rw [equal, Except.ok.injEq, Bool.eq_iff_iff, beq_iff_eq, beq_iff_eq]
  exact Names.eq_iff_of_reads named.sound reads reads'

/-- A scope does not take a symbol that is called like one of its members. -/
theorem Reachable.refused_of_lists (reachable : t.Reachable) (lists : t.Lists s text x)
    (called : t.symbolName y = .ok text) : ∃ place,
      t.apply (.define s y) = .ok (.error (.duplicateSymbol text place), t) ∨
      t.apply (.define s y) = .ok (.error (.alreadyDefined text place), t) := by
  have consistent := reachable.consistent
  have named := reachable.named
  obtain ⟨_, listed, _⟩ := id lists
  obtain ⟨c, scope, _⟩ := symbolsOf_eq_ok_iff.mp listed
  obtain ⟨a, symbol, _⟩ := named.symbolName_eq_ok_iff.mp called
  obtain ⟨result, defined⟩ := consistent.exists_define (hasScope_iff.mpr ⟨c, scope⟩)
    (hasSymbol_iff.mpr ⟨a, symbol⟩)
  have taken : ¬ t.Unnamed s y := fun unnamed => unnamed text x called lists
  cases result with
  | ok u =>
    obtain ⟨a', c', admits, _⟩ := define_eq_ok defined
    exact absurd (admits.legal consistent named).unnamed taken
  | error refusal =>
    have refused := consistent.refused_of_refusal? named symbol scope
      (refusal?_of_define_eq_error defined)
    have outcome : t.apply (.define s y) = .ok (.error refusal, t) := by
      rw [apply, defined]
      rfl
    cases refused with
    | alreadyDefined _ called' _ =>
      cases Except.ok.inj (called.symm.trans called')
      exact ⟨_, .inr outcome⟩
    | duplicateSymbol _ _ called' _ =>
      cases Except.ok.inj (called.symm.trans called')
      exact ⟨_, .inl outcome⟩
    | invalidMember _ unnamed => exact absurd unnamed taken
    | unresolvedSuperclass _ unnamed => exact absurd unnamed taken
    | cyclicScope _ unnamed => exact absurd unnamed taken

/-- Names tell strings apart in every interner, and the names of a table are such. So two of its
symbols have equal names just when they are called alike. No two members of a scope are called
alike, and a symbol that is called like a member is refused and nothing changes. -/
theorem names_tell_strings :
    (∀ names, Names.start.Interned names → names.Faithful) ∧
    ∀ t : Table, t.Reachable → Names.start.Interned t.names ∧
      (∀ x y, t.HasSymbol x → t.HasSymbol y → ∃ p q, t.symbolName x = .ok p ∧
        t.symbolName y = .ok q ∧ t.symbolsEqual x y = .ok (p == q)) ∧
      ∀ s l x y text, t.symbolsOf s = .ok l → x ∈ l → t.symbolName x = .ok text →
        t.symbolName y = .ok text → (y ∈ l → x = y) ∧ ∃ place,
          t.apply (.define s y) = .ok (.error (.duplicateSymbol text place), t) ∨
          t.apply (.define s y) = .ok (.error (.alreadyDefined text place), t) := by
  refine ⟨fun names => Names.Interned.faithful, fun t reachable => ⟨reachable.interned, ?_, ?_⟩⟩
  · intro x y here there
    obtain ⟨p, called⟩ := reachable.named.exists_symbolName here
    obtain ⟨q, called'⟩ := reachable.named.exists_symbolName there
    exact ⟨p, q, called, called', reachable.named.symbolsEqual_eq called called'⟩
  · intro s l x y text listed member called called'
    have lists : t.Lists s text x := ⟨l, listed, member, called⟩
    refine ⟨fun member' => ?_, reachable.refused_of_lists lists called'⟩
    exact reachable.consistent.lists_unique reachable.named lists ⟨l, listed, member', called'⟩

/-- A class that extends another name, a variable of that name, and two variables that are called
like the class. The one stands in a function, the other is not defined. -/
def echoing : Run where
  config := {}
  operations := [
    .declare "A" (.classType (some "B")), .define .global ⟨0⟩,
    .declare "B" (.var none), .define .global ⟨1⟩,
    .declare "f" (.function none), .define .global ⟨2⟩,
    .declare "A" (.var none), .define ⟨3⟩ ⟨3⟩, .declare "A" (.var none)]
  accepted := by decide +kernel

theorem echoing_names_tell_strings :
    (((Names.start.intern "A").2.intern "B").2.intern "A" =
      ((Names.start.intern "A").1, ((Names.start.intern "A").2.intern "B").2)) ∧
    echoing.final.Reachable ∧ echoing.final.names.find? "B" = some ⟨1⟩ ∧
    (1 < echoing.final.names.size ∧ echoing.final.names.text ⟨1⟩ = "B") ∧
    echoing.final.symbolsEqual ⟨0⟩ ⟨3⟩ = .ok true ∧ echoing.final.symbolsEqual ⟨0⟩ ⟨1⟩ = .ok false ∧
    echoing.final.symbolsOf ⟨3⟩ = .ok [⟨3⟩] ∧
    ∃ place, echoing.final.apply (.define ⟨3⟩ ⟨4⟩) =
        .ok (.error (.duplicateSymbol "A" place), echoing.final) ∨
      echoing.final.apply (.define ⟨3⟩ ⟨4⟩) =
        .ok (.error (.alreadyDefined "A" place), echoing.final) := by
  obtain ⟨names, tables⟩ := names_tell_strings
  have reachable := echoing.reachable echoing.operations.length
  obtain ⟨interned, equal, taken⟩ := tables _ reachable
  have called : echoing.final.symbolName ⟨0⟩ = .ok "A" ∧ echoing.final.symbolName ⟨1⟩ = .ok "B" ∧
      echoing.final.symbolName ⟨3⟩ = .ok "A" ∧ echoing.final.symbolName ⟨4⟩ = .ok "A" := by
    decide +kernel
  have compared : ∀ {x y p q}, echoing.final.symbolName x = .ok p →
      echoing.final.symbolName y = .ok q → echoing.final.HasSymbol x → echoing.final.HasSymbol y →
      echoing.final.symbolsEqual x y = .ok (p == q) := by
    intro x y p q here there given given'
    obtain ⟨p', q', here', there', same⟩ := equal x y given given'
    cases Except.ok.inj (here.symm.trans here')
    cases Except.ok.inj (there.symm.trans there')
    exact same
  have found : echoing.final.names.find? "B" = some ⟨1⟩ := by decide +kernel
  have listed : echoing.final.symbolsOf ⟨3⟩ = .ok [⟨3⟩] := by decide +kernel
  refine ⟨?_, reachable, found, ((names _ interned).found _ _).mp found, ?_, ?_, listed, ?_⟩
  · exact (names _ (.refl _)).again "A" _ (.intern "B" (.refl _))
  · exact compared called.1 called.2.2.1 (by decide +kernel) (by decide +kernel)
  · exact compared called.1 called.2.1 (by decide +kernel) (by decide +kernel)
  · exact (taken ⟨3⟩ _ ⟨3⟩ ⟨4⟩ "A" listed (by simp) called.2.2.1 called.2.2.2).2

end Table

end Scoping
