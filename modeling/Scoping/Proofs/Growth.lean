import Scoping.Proofs.Visible

/-!
# Growth

No operation takes anything back. Names, kinds and superclass names stay, and members
stay members. A change is calm when no field or method joins a struct or class by it;
then slots and counters stay as well.
-/

namespace Scoping

/-- Members of these kinds have slots. -/
def Kind.Slotted (k : Kind) : Prop := k = .field ∨ k = .method

namespace Table

variable {t u v : Table} {x y m D : SymbolId} {k : Kind} {f : Symbol → Symbol}

def superclassAt (t : Table) (x : SymbolId) : Option Name :=
  t.symbols[x.index]?.bind fun a => a.form.superclassName?

/-- What no change takes back. -/
structure Grows (t u : Table) : Prop where
  config : u.config = t.config
  name : ∀ {x}, t.HasSymbol x → u.nameAt x = t.nameAt x
  kind : ∀ {x}, t.HasSymbol x → u.kindAt x = t.kindAt x
  superclass : ∀ {x}, t.HasSymbol x → u.superclassAt x = t.superclassAt x
  contents : ∀ {D m}, m ∈ t.contents D → m ∈ u.contents D

/-- A change by which no field or method joins a struct or class. -/
structure Calm (t u : Table) : Prop extends Grows t u where
  slot : ∀ x, u.slotAt x = t.slotAt x
  next : ∀ k x, u.nextAt k x = t.nextAt k x
  own : ∀ {k} D, k.Slotted → u.own k D = t.own k D

theorem nameAt_isSome_iff : (t.nameAt x).isSome ↔ t.HasSymbol x := by
  rw [nameAt, Option.isSome_map, HasSymbol]
  simp

theorem Grows.hasSymbol (grows : Grows t u) (given : t.HasSymbol x) : u.HasSymbol x := by
  have known := nameAt_isSome_iff.mpr given
  rw [← grows.name given] at known
  exact nameAt_isSome_iff.mp known

theorem Grows.refl (t : Table) : Grows t t :=
  ⟨rfl, fun _ => rfl, fun _ => rfl, fun _ => rfl, fun member => member⟩

theorem Grows.trans (first : Grows t u) (second : Grows u v) : Grows t v where
  config := second.config.trans first.config
  name given := (second.name (first.hasSymbol given)).trans (first.name given)
  kind given := (second.kind (first.hasSymbol given)).trans (first.kind given)
  superclass given := (second.superclass (first.hasSymbol given)).trans (first.superclass given)
  contents member := second.contents (first.contents member)

theorem Calm.refl (t : Table) : Calm t t :=
  ⟨.refl t, fun _ => rfl, fun _ _ => rfl, fun _ _ => rfl⟩

theorem Calm.trans (first : Calm t u) (second : Calm u v) : Calm t v where
  toGrows := first.toGrows.trans second.toGrows
  slot x := (second.slot x).trans (first.slot x)
  next k x := (second.next k x).trans (first.next k x)
  own D slotted := (second.own D slotted).trans (first.own D slotted)

theorem nextAt_eq (same : ∀ x, u.layoutAt x = t.layoutAt x) (k : Kind) (x : SymbolId) :
    u.nextAt k x = t.nextAt k x := by rw [nextAt, nextAt, same]

/-! ### Changes of single entries -/

theorem bind_modifySymbol {γ : Type} {g : Symbol → Option γ} (keeps : ∀ a, g (f a) = g a) :
    (t.modifySymbol x f).symbols[y.index]?.bind g = t.symbols[y.index]?.bind g := by
  rw [modifySymbol, Array.getElem?_modify]
  split
  · cases t.symbols[y.index]? with
    | none => rfl
    | some a => exact keeps a
  · rfl

theorem map_modifySymbol {γ : Type} {g : Symbol → γ} (keeps : ∀ a, g (f a) = g a) :
    (t.modifySymbol x f).symbols[y.index]?.map g = t.symbols[y.index]?.map g := by
  rw [modifySymbol, Array.getElem?_modify]
  split
  · cases t.symbols[y.index]? with
    | none => rfl
    | some a => exact congrArg some (keeps a)
  · rfl

theorem slotAt_modifySymbol (keeps : ∀ a, (f a).form.slot? = a.form.slot?) :
    (t.modifySymbol x f).slotAt y = t.slotAt y := bind_modifySymbol keeps

theorem layoutAt_modifySymbol (keeps : ∀ a, (f a).form.layout? = a.form.layout?) :
    (t.modifySymbol x f).layoutAt y = t.layoutAt y := bind_modifySymbol keeps

/-! ### Tables of one shape -/

theorem layout?_map_body (form : Form) : form.layout?.map Layout.body =
    if form.kind.isAggregate then form.body? else none := by
  cases form <;> rfl

namespace SameShape

theorem entries (same : SameShape t u) (x : SymbolId) :
    t.symbols[x.index]? = none ∧ u.symbols[x.index]? = none ∨
    ∃ a b, t.symbols[x.index]? = some a ∧ u.symbols[x.index]? = some b ∧ a.shape = b.shape := by
  have entry := congrArg (fun shapes => shapes[x.index]?) same.symbols
  simp only [Array.getElem?_map] at entry
  cases old : t.symbols[x.index]? with
  | none =>
    rw [old, Option.map_none, eq_comm, Option.map_eq_none_iff] at entry
    exact .inl ⟨rfl, entry⟩
  | some a =>
    rw [old, Option.map_some, eq_comm, Option.map_eq_some_iff] at entry
    obtain ⟨b, new, shape⟩ := entry
    exact .inr ⟨a, b, rfl, new, shape.symm⟩

theorem bind_eq {γ : Type} {g : Symbol → Option γ} (same : SameShape t u)
    (reads : ∀ a b, a.shape = b.shape → g a = g b) :
    u.symbols[x.index]?.bind g = t.symbols[x.index]?.bind g := by
  rcases same.entries x with ⟨old, new⟩ | ⟨a, b, old, new, shape⟩
  · rw [old, new]
  · rw [old, new]
    exact (reads a b shape).symm

theorem nameAt_eq (same : SameShape t u) : u.nameAt x = t.nameAt x := by
  rw [nameAt, nameAt, Option.map_eq_bind, Option.map_eq_bind]
  exact same.bind_eq fun _ _ shape => congrArg some (Symbol.shape_eq_iff.mp shape).1

theorem kindAt_eq (same : SameShape t u) : u.kindAt x = t.kindAt x := by
  rw [kindAt, kindAt, Option.map_eq_bind, Option.map_eq_bind]
  exact same.bind_eq fun _ _ shape => congrArg some (Symbol.shape_eq_iff.mp shape).2.1

theorem superclassAt_eq (same : SameShape t u) : u.superclassAt x = t.superclassAt x :=
  same.bind_eq fun _ _ shape => (Symbol.shape_eq_iff.mp shape).2.2.2.1

theorem layoutBody_eq (same : SameShape t u) :
    (u.layoutAt x).map Layout.body = (t.layoutAt x).map Layout.body := by
  rw [layoutAt, layoutAt, Option.map_bind, Option.map_bind]
  refine same.bind_eq fun a b shape => ?_
  obtain ⟨_, kind, body, _⟩ := Symbol.shape_eq_iff.mp shape
  have kind : a.form.kind = b.form.kind := kind
  simp only [Function.comp_apply, layout?_map_body, body, kind]

theorem membersAt_eq (same : SameShape t u) (s : ScopeId) : u.membersAt s = t.membersAt s := by
  cases read : t.scope s with
  | ok c =>
    obtain ⟨d, read', shape⟩ := same.scope read
    rw [membersAt_of_scope read, membersAt_of_scope read', (Scope.shape_eq_iff.mp shape).2.2.1]
  | error e =>
    have missing : ∀ {v : Table}, v.scope s = .error e → v.membersAt s = [] := by
      intro v read
      rw [membersAt]
      cases entry : v.scopes[s.index]? with
      | none => rfl
      | some c =>
        rw [scope_eq_ok_iff.mpr entry] at read
        cases read
    rw [missing read, missing (same.alike.scope_error read)]

theorem contents_eq (same : SameShape t u) (D : SymbolId) : u.contents D = t.contents D := by
  have body := same.layoutBody_eq (x := D)
  rw [contents, contents]
  cases old : t.layoutAt D with
  | none =>
    rw [old, Option.map_none, Option.map_eq_none_iff] at body
    rw [body]
  | some layout =>
    rw [old, Option.map_some, Option.map_eq_some_iff] at body
    obtain ⟨layout', new, equal⟩ := body
    rw [new]
    simp only [equal, same.membersAt_eq]

theorem own_eq (same : SameShape t u) (k : Kind) (D : SymbolId) : u.own k D = t.own k D := by
  rw [own, own, same.contents_eq]
  simp only [same.kindAt_eq]

end SameShape

end Table

end Scoping
