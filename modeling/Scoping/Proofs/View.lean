import Scoping.Proofs.Lineage
import Scoping.Proofs.Listing

/-!
# Members by list

What slots depend on, read as lists: the members in the body of a struct or class,
those of one kind among them, and the listing of what is visible through a chain.
On a consistent table the questions about members have these lists as answers.
-/

namespace Scoping

namespace Table

variable {t u : Table} {x y m D E : SymbolId} {a b : Symbol} {k : Kind} {l : List SymbolId}

def nameAt (t : Table) (x : SymbolId) : Option Name := t.symbols[x.index]?.map Symbol.name

def kindAt (t : Table) (x : SymbolId) : Option Kind := t.symbols[x.index]?.map Symbol.kind

def slotAt (t : Table) (x : SymbolId) : Option Nat :=
  t.symbols[x.index]?.bind fun a => a.form.slot?

def layoutAt (t : Table) (x : SymbolId) : Option Layout :=
  t.symbols[x.index]?.bind fun a => a.form.layout?

def bodyAt (t : Table) (x : SymbolId) : Option ScopeId :=
  t.symbols[x.index]?.bind fun a => a.form.body?

/-- The counter of the slots for members of a kind, once the first was taken. -/
def nextAt (t : Table) (k : Kind) (x : SymbolId) : Option Nat := (t.layoutAt x).bind (·.next? k)

def membersAt (t : Table) (s : ScopeId) : List SymbolId :=
  match t.scopes[s.index]? with
  | some c => c.members.toList
  | none => []

/-- The members of a struct or class, first definition first. -/
def contents (t : Table) (x : SymbolId) : List SymbolId :=
  match t.layoutAt x with
  | some layout => t.membersAt layout.body
  | none => []

/-- The members of a struct or class that are of a kind. -/
def own (t : Table) (k : Kind) (x : SymbolId) : List SymbolId :=
  (t.contents x).filter fun m => t.kindAt m = some k

/-- The listing of the members of a kind along a chain, given nearest first. -/
def layered (t : Table) (k : Kind) : List SymbolId → List SymbolId
  | [] => []
  | D :: above => overlay t.nameAt (t.layered k above) (t.own k D)

theorem mem_everySymbol : x ∈ t.everySymbol ↔ t.HasSymbol x := by
  rw [everySymbol, List.mem_map]
  constructor
  · rintro ⟨i, inside, rfl⟩
    exact List.mem_range.mp inside
  · exact fun given => ⟨x.index, List.mem_range.mpr given, rfl⟩

theorem symbols_of_symbol (read : t.symbol x = .ok a) : t.symbols[x.index]? = some a :=
  symbol_eq_ok_iff.mp read

theorem nameAt_of_symbol (read : t.symbol x = .ok a) : t.nameAt x = some a.name := by
  rw [nameAt, symbols_of_symbol read]
  rfl

theorem kindAt_of_symbol (read : t.symbol x = .ok a) : t.kindAt x = some a.kind := by
  rw [kindAt, symbols_of_symbol read]
  rfl

theorem slotAt_of_symbol (read : t.symbol x = .ok a) : t.slotAt x = a.form.slot? := by
  rw [slotAt, symbols_of_symbol read]
  rfl

theorem layoutAt_of_symbol (read : t.symbol x = .ok a) : t.layoutAt x = a.form.layout? := by
  rw [layoutAt, symbols_of_symbol read]
  rfl

theorem bodyAt_of_symbol (read : t.symbol x = .ok a) : t.bodyAt x = a.form.body? := by
  rw [bodyAt, symbols_of_symbol read]
  rfl

theorem bodyAt_eq_some_iff {s : ScopeId} : t.bodyAt x = some s ↔ t.body? x = .ok (some s) := by
  simp only [bodyAt, Option.bind_eq_some_iff, body?_eq_ok_iff, symbol_eq_ok_iff]

/-- The bodies of symbols that were all given out. -/
theorem bodies_eq (given : ∀ y ∈ l, t.HasSymbol y) :
    (do return (← l.mapM t.body?).filterMap id : Answer (List ScopeId)) =
      .ok (l.filterMap t.bodyAt) := by
  have known : ∀ y ∈ l, t.body? y = .ok (t.bodyAt y) := by
    intro y member
    obtain ⟨b, symbol⟩ := hasSymbol_iff.mp (given y member)
    rw [bodyAt_of_symbol symbol, body?_of_symbol symbol]
  rw [Answer.mapM_eq_ok known, Answer.ok_bind, List.filterMap_map]
  rfl

theorem membersAt_of_scope {s : ScopeId} {c : Scope} (read : t.scope s = .ok c) :
    t.membersAt s = c.members.toList := by
  rw [membersAt, scope_eq_ok_iff.mp read]

theorem slot?_eq (given : t.HasSymbol x) : t.slot? x = .ok (t.slotAt x) := by
  obtain ⟨a, read⟩ := hasSymbol_iff.mp given
  rw [slot?, read, slotAt_of_symbol read]
  rfl

theorem kindAt_eq_some_iff : t.kindAt x = some k ↔ ∃ a, t.symbol x = .ok a ∧ a.kind = k := by
  simp only [kindAt, Option.map_eq_some_iff, symbol_eq_ok_iff]

theorem nameAt_eq_some_iff {n : Name} :
    t.nameAt x = some n ↔ ∃ a, t.symbol x = .ok a ∧ a.name = n := by
  simp only [nameAt, Option.map_eq_some_iff, symbol_eq_ok_iff]

theorem name_eq_ok_iff {n : Name} : t.name x = .ok n ↔ t.nameAt x = some n := by
  rw [Table.name, Answer.bind_eq_ok_iff, nameAt_eq_some_iff]
  simp

theorem name_eq_name_iff (given : t.HasSymbol y) :
    t.name x = t.name y ↔ t.nameAt x = t.nameAt y := by
  obtain ⟨b, symbol⟩ := hasSymbol_iff.mp given
  have named := nameAt_of_symbol symbol
  rw [name_eq_ok_iff.mpr named, name_eq_ok_iff, named]

/-- Structs and classes are the symbols with a layout. -/
theorem isAggregate_iff : a.kind.isAggregate = true ↔ ∃ layout, a.form.layout? = some layout := by
  rw [Symbol.kind]
  cases a.form <;> simp [Form.kind, Kind.isAggregate, Form.layout?]

theorem body?_of_layout? {layout : Layout} {form : Form} (has : form.layout? = some layout) :
    form.body? = some layout.body := by
  cases form <;> simp_all [Form.layout?, Form.body?]

/-- The symbol is a struct or class. -/
def IsAggregate (t : Table) (x : SymbolId) : Prop :=
  ∃ a, t.symbol x = .ok a ∧ a.kind.isAggregate = true

theorem IsAggregate.hasSymbol (aggregate : t.IsAggregate x) : t.HasSymbol x := by
  obtain ⟨a, read, _⟩ := aggregate
  exact hasSymbol_iff.mpr ⟨a, read⟩

theorem IsAggregate.of_layoutAt {layout : Layout} (has : t.layoutAt x = some layout) :
    t.IsAggregate x := by
  obtain ⟨a, entry, layout'⟩ := Option.bind_eq_some_iff.mp has
  exact ⟨a, symbol_eq_ok_iff.mpr entry, isAggregate_iff.mpr ⟨layout, layout'⟩⟩

theorem IsAggregate.of_mem (member : m ∈ t.contents D) : t.IsAggregate D := by
  cases has : t.layoutAt D with
  | some layout => exact .of_layoutAt has
  | none =>
    rw [contents, has] at member
    simp at member

theorem contents_of_not_aggregate (other : ¬ t.IsAggregate D) : t.contents D = [] := by
  cases empty : t.contents D with
  | nil => rfl
  | cons m rest =>
    have member : m ∈ t.contents D := by
      rw [empty]
      exact List.mem_cons_self
    exact absurd (IsAggregate.of_mem member) other

theorem own_of_not_aggregate (other : ¬ t.IsAggregate D) (k : Kind) : t.own k D = [] := by
  rw [own, contents_of_not_aggregate other]
  rfl

namespace Consistent

variable {c : Scope} {s : ScopeId} {n : Name}

/-- A symbol owns one scope only. -/
theorem scope_unique (consistent : t.Consistent) {s' : ScopeId} {c' : Scope}
    (read : t.scope s = .ok c) (owned : c.owner? = some D) (read' : t.scope s' = .ok c')
    (owned' : c'.owner? = some D) : s = s' ∧ c = c' := by
  obtain ⟨_, symbol, body⟩ := consistent.owner read owned
  obtain ⟨_, symbol', body'⟩ := consistent.owner read' owned'
  cases Except.ok.inj (symbol.symm.trans symbol')
  cases body.symm.trans body'
  exact ⟨rfl, Except.ok.inj (read.symm.trans read')⟩

/-- The body of a struct or class lists its contents. -/
theorem contents (consistent : t.Consistent) (aggregate : t.IsAggregate D) :
    ∃ a s c, t.symbol D = .ok a ∧ a.form.body? = some s ∧ t.scope s = .ok c ∧
      c.owner? = some D ∧ t.contents D = c.members.toList := by
  obtain ⟨a, read, kind⟩ := aggregate
  obtain ⟨layout, has⟩ := isAggregate_iff.mp kind
  have body := body?_of_layout? has
  obtain ⟨c, scope, owned, _⟩ := consistent.body read body
  refine ⟨a, layout.body, c, read, body, scope, owned, ?_⟩
  rw [Table.contents, layoutAt_of_symbol read, has]
  exact membersAt_of_scope scope

theorem contents_of_scope (consistent : t.Consistent) (aggregate : t.IsAggregate D)
    (read : t.scope s = .ok c) (owned : c.owner? = some D) :
    t.contents D = c.members.toList := by
  obtain ⟨_, _, _, _, _, scope, owned', listed⟩ := consistent.contents aggregate
  obtain ⟨_, rfl⟩ := consistent.scope_unique read owned scope owned'
  exact listed

/-- A member knows the body that lists it, and the body finds it by its name. -/
theorem member_contents (consistent : t.Consistent) (member : m ∈ t.contents D) :
    ∃ a s c, t.symbol m = .ok a ∧ a.owningScope? = some s ∧ t.scope s = .ok c ∧
      c.owner? = some D ∧ c.find? a.name = some m := by
  have aggregate := IsAggregate.of_mem member
  obtain ⟨_, s, c, _, _, scope, owned, listed⟩ := consistent.contents aggregate
  rw [listed, Array.mem_toList_iff] at member
  obtain ⟨a, symbol, home, found⟩ := consistent.member scope member
  exact ⟨a, s, c, symbol, home, scope, owned, found⟩

theorem hasSymbol_of_mem (consistent : t.Consistent) (member : m ∈ t.contents D) :
    t.HasSymbol m := by
  obtain ⟨a, _, _, symbol, _⟩ := consistent.member_contents member
  exact hasSymbol_iff.mpr ⟨a, symbol⟩

theorem nodup_contents (consistent : t.Consistent) (D : SymbolId) : (t.contents D).Nodup := by
  by_cases aggregate : t.IsAggregate D
  · obtain ⟨_, _, c, _, _, scope, _, listed⟩ := consistent.contents aggregate
    rw [listed]
    exact consistent.distinct scope
  · rw [contents_of_not_aggregate aggregate]
    exact List.nodup_nil

/-- The names in one body are distinct. -/
theorem eq_of_nameAt_eq (consistent : t.Consistent) (here : x ∈ t.contents D)
    (there : y ∈ t.contents D) (same : t.nameAt x = t.nameAt y) : x = y := by
  obtain ⟨a, s, c, symbol, _, scope, owned, found⟩ := consistent.member_contents here
  obtain ⟨b, s', c', symbol', _, scope', owned', found'⟩ := consistent.member_contents there
  obtain ⟨_, rfl⟩ := consistent.scope_unique scope owned scope' owned'
  rw [nameAt_of_symbol symbol, nameAt_of_symbol symbol', Option.some.injEq] at same
  rw [same] at found
  exact Option.some.inj (found.symm.trans found')

theorem names_own (consistent : t.Consistent) (k : Kind) (D : SymbolId) :
    ((t.own k D).map t.nameAt).Nodup := by
  refine List.Nodup.map_on ?_ ((consistent.nodup_contents D).filter _)
  intro x here y there same
  exact consistent.eq_of_nameAt_eq (List.mem_of_mem_filter here) (List.mem_of_mem_filter there)
    same

end Consistent

theorem mem_own : m ∈ t.own k D ↔ m ∈ t.contents D ∧ t.kindAt m = some k := by
  simp [own]

theorem names_layered (k : Kind) (l : List SymbolId) :
    ((t.layered k l).map t.nameAt).Nodup := by
  induction l with
  | nil => exact List.nodup_nil
  | cons D above ih => exact nodup_overlay ih

theorem exists_own_of_mem_layered (listed : m ∈ t.layered k l) : ∃ D ∈ l, m ∈ t.own k D := by
  induction l with
  | nil => simp [layered] at listed
  | cons D above ih =>
    rcases mem_of_mem_overlay listed with here | there
    · exact ⟨D, List.mem_cons_self, here⟩
    · obtain ⟨E, member, here⟩ := ih there
      exact ⟨E, List.mem_cons_of_mem D member, here⟩

end Table

end Scoping
