import Scoping.Proofs.Arrival
import Scoping.Proofs.Consistency

/-!
# Names and their strings

Names are the numbers of a lexicon. The name of a symbol was given out by the names of its
table, which forget nothing; so a name is found by its string, and symbols have the same name
just when their names read the same.
-/

namespace Scoping

namespace Names

variable {names more : Names} {n : Name} {s : String}

/-- The name was given out for the string. -/
def Reads (names : Names) (n : Name) (s : String) : Prop := names.lexicon.get? n.index = some s

theorem Reads.text (reads : names.Reads n s) : names.text n = s := by
  rw [Names.text, show names.lexicon.get? n.index = some s from reads]
  rfl

/-- A string that has a name is found under it, and nothing else is. -/
theorem find?_eq_some_iff (sound : names.lexicon.Sound) :
    names.find? s = some n ↔ names.Reads n s := by
  rw [find?, Option.map_eq_some_iff, Reads, ← sound]
  constructor
  · rintro ⟨i, known, rfl⟩
    exact known
  · exact fun known => ⟨n.index, known, rfl⟩

/-- A string that has a name is not interned again. -/
theorem intern_of_reads (sound : names.lexicon.Sound) (reads : names.Reads n s) :
    names.intern s = (n, names) := by
  rw [intern, Lexicon.add_of_known ((sound s n.index).mpr reads)]

/-- Names are added, and none is taken back. -/
structure Extends (names more : Names) : Prop where
  sound : names.lexicon.Sound → more.lexicon.Sound
  reads : ∀ {n s}, names.Reads n s → more.Reads n s

theorem Extends.refl (names : Names) : Extends names names := ⟨id, id⟩

theorem Extends.trans {most : Names} (first : Extends names more) (second : Extends more most) :
    Extends names most :=
  ⟨fun sound => second.sound (first.sound sound), fun reads => second.reads (first.reads reads)⟩

theorem extends_intern (names : Names) (s : String) : Extends names (names.intern s).2 :=
  ⟨fun sound => sound.add s, fun reads => Lexicon.get?_add reads s⟩

theorem reads_intern (sound : names.lexicon.Sound) (s : String) :
    (names.intern s).2.Reads (names.intern s).1 s := sound.get?_add_self s

/-- An interning that is allowed is the same as one that is not checked. -/
theorem intern_of_tryIntern (interned : names.tryIntern s = .ok (n, more)) :
    names.intern s = (n, more) := by
  rw [tryIntern] at interned
  split at interned
  · cases interned
  · exact Except.ok.inj interned

/-- Strings were interned one after the other, checked or not. -/
inductive Interned : Names → Names → Prop
  | refl (names : Names) : Interned names names
  | intern {names more : Names} (s : String) :
      Interned names more → Interned names (more.intern s).2
  | tryIntern {names more most : Names} {n : Name} {s : String} :
      Interned names more → more.tryIntern s = .ok (n, most) → Interned names most

theorem Interned.trans {most : Names} (first : Interned names more)
    (second : Interned more most) : Interned names most := by
  induction second with
  | refl => exact first
  | intern s _ ih => exact .intern s ih
  | tryIntern _ interned ih => exact .tryIntern ih interned

theorem interned_intern (names : Names) (s : String) : Interned names (names.intern s).2 :=
  .intern s (.refl names)

theorem Interned.extends (interned : Interned names more) : Extends names more := by
  induction interned with
  | refl => exact .refl _
  | intern s _ ih => exact ih.trans (extends_intern _ s)
  | @tryIntern before _ _ s _ interned ih =>
    have last := before.extends_intern s
    rw [intern_of_tryIntern interned] at last
    exact ih.trans last

theorem sound_start : start.lexicon.Sound := Lexicon.sound_empty.add ""

end Names

namespace Table

variable {t u : Table} {x y : SymbolId} {a : Symbol} {s : ScopeId} {text : String}
  {kinds : Kind → Prop}

/-- The names of all symbols were given out. -/
structure Named (t : Table) : Prop where
  sound : t.names.lexicon.Sound
  reads : ∀ {x a}, t.symbol x = .ok a → ∃ text, t.names.Reads a.name text

theorem interned_addForm (t : Table) (text : String) (spec : Spec) :
    t.names.Interned (t.addForm text spec).2.names := by
  cases spec with
  | classType superclass =>
    cases superclass with
    | none => exact t.names.interned_intern text
    | some above => exact (t.names.interned_intern above).intern text
  | structType => exact t.names.interned_intern text
  | primitiveType => exact t.names.interned_intern text
  | typeAlias _ => exact t.names.interned_intern text
  | _ => exact .refl _

/-- The new symbol is named by the string it was declared with. -/
theorem declare_names {spec : Spec} (declared : t.declare text spec = .ok (x, u)) :
    t.names.Interned u.names ∧ ∃ a, u.symbols = t.symbols.push a ∧
      (t.names.lexicon.Sound → u.names.Reads a.name text) := by
  have made := interned_addForm t text spec
  have symbols := symbols_addForm t text spec
  rw [declare] at declared
  split at declared
  · cases declared
  · generalize t.addForm text spec = added at made symbols declared
    obtain ⟨form, v⟩ := added
    have result : (v.intern text).2.addSymbol { name := (v.intern text).1, form } = (x, u) :=
      Except.ok.inj declared
    rw [addSymbol, Prod.mk.injEq] at result
    obtain ⟨_, rfl⟩ := result
    refine ⟨made.intern text, { name := (v.intern text).1, form }, ?_, ?_⟩
    · exact congrArg (fun symbols : Array Symbol => symbols.push _) symbols
    · exact fun sound => Names.reads_intern (made.extends.sound sound) text

theorem named_new (config : Config) : (Table.new config).Named :=
  ⟨Names.sound_start, fun read => absurd read symbol_new⟩

/-- Symbols keep their names where none is added. -/
theorem Named.of_eq (named : t.Named) (names : u.names = t.names)
    (kept : ∀ {x b}, u.symbol x = .ok b → ∃ a, t.symbol x = .ok a ∧ a.name = b.name) :
    u.Named := by
  refine ⟨names ▸ named.sound, fun read => ?_⟩
  obtain ⟨a, read', same⟩ := kept read
  rw [← same, names]
  exact named.reads read'

theorem Named.sameShape (named : t.Named) (names : u.names = t.names) (same : SameShape t u) :
    u.Named := by
  refine named.of_eq names fun read => ?_
  obtain ⟨a, read', shape⟩ := same.symm.symbol read
  exact ⟨a, read', (Symbol.shape_eq_iff.mp shape).1⟩

theorem Named.declare {spec : Spec} (named : t.Named)
    (declared : t.declare text spec = .ok (x, u)) : u.Named := by
  obtain ⟨interned, b, pushed, fresh⟩ := declare_names declared
  have more := interned.extends
  refine ⟨more.sound named.sound, fun read => ?_⟩
  rcases (symbol_push_iff pushed).mp read with old | ⟨_, rfl⟩
  · obtain ⟨text, reads⟩ := named.reads old
    exact ⟨text, more.reads reads⟩
  · exact ⟨text, fresh named.sound⟩

theorem Named.define (named : t.Named) (defined : t.define s x = .ok (.ok u)) : u.Named := by
  obtain ⟨a, c, _, assigned⟩ := define_eq_ok defined
  have placed : (t.placed s x a c).Named := by
    refine named.of_eq names_placed fun read => ?_
    obtain ⟨e, read', rfl⟩ := of_symbol_placed read
    exact ⟨e, read', name_placedSymbol.symm⟩
  obtain ⟨symbols, rfl, _⟩ := assignSlotIn_unnumbered assigned
  exact placed.sameShape rfl (sameShape_assignSlotIn assigned)

theorem Named.change (named : t.Named) (change : Change kinds t u) : u.Named := by
  cases change with
  | intern text =>
    have more := t.names.extends_intern text
    refine ⟨more.sound named.sound, fun read => ?_⟩
    obtain ⟨text, reads⟩ := named.reads read
    exact ⟨text, more.reads reads⟩
  | requestType r => exact named.sameShape rfl (.of_eq rfl rfl)
  | numberType type index => exact named.sameShape rfl (.of_eq rfl rfl)
  | declare declared => exact named.declare declared
  | openScope given => exact named.of_eq rfl fun read => ⟨_, read, rfl⟩
  | nest _ _ _ => exact named.sameShape rfl (sameShape_nest t _ _)
  | setType type _ => exact named.sameShape rfl (sameShape_setType t _ type)
  | setDefSite x site => exact named.sameShape rfl (sameShape_setDefSite t x site)
  | define defined _ => exact named.define defined

theorem Reachable.named (reachable : t.Reachable) : t.Named :=
  reachable.keeps named_new fun _ _ named change => named.change change

/-- What a symbol is called is the string that its name was given out for. -/
theorem Named.symbolName_eq_ok_iff (named : t.Named) :
    t.symbolName x = .ok text ↔ ∃ a, t.symbol x = .ok a ∧ t.names.Reads a.name text := by
  have opened : t.symbolName x = .ok text ↔
      ∃ a, t.symbol x = .ok a ∧ t.names.text a.name = text := by
    simp only [symbolName, name, nameText, Answer.bind_eq_ok_iff, Answer.pure_eq_ok,
      Except.ok.injEq]
    constructor
    · rintro ⟨_, ⟨a, read, rfl⟩, same⟩
      exact ⟨a, read, same⟩
    · rintro ⟨a, read, same⟩
      exact ⟨_, ⟨a, read, rfl⟩, same⟩
  rw [opened]
  constructor
  · rintro ⟨a, read, same⟩
    obtain ⟨known, reads⟩ := named.reads read
    rw [reads.text] at same
    exact ⟨a, read, same ▸ reads⟩
  · rintro ⟨a, read, reads⟩
    exact ⟨a, read, reads.text⟩

end Table

end Scoping
