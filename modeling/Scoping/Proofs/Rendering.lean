import Scoping.Proofs.Answered
import Scoping.Proofs.Descendants

/-!
# The lines of an outline

An outline takes the scopes below a scope one after the other, each before those inside of
it. A scope has its lines all together: its name, and one level deeper its members without a
body. The level is counted down the tree while it is written, and comes out as the number of
steps outwards.
-/

namespace Scoping

namespace Table

variable {t : Table} {s p q r : ScopeId} {x : SymbolId} {order : List ScopeId}

/-! ### Plain members -/

/-- The members of a scope that have no body. -/
def plainAt (t : Table) (s : ScopeId) : List SymbolId :=
  (t.membersAt s).filter fun x => (t.bodyAt x).isNone

namespace Consistent

theorem plainMembers_eq (consistent : t.Consistent) (given : t.HasScope s) :
    t.symbolsOf s = .ok (t.membersAt s) ∧ t.plainMembers s = .ok (t.plainAt s) := by
  obtain ⟨c, read⟩ := hasScope_iff.mp given
  have listed : t.symbolsOf s = .ok (t.membersAt s) :=
    symbolsOf_eq_ok_iff.mpr ⟨c, read, (membersAt_of_scope read).symm⟩
  refine ⟨listed, ?_⟩
  rw [plainMembers, listed]
  refine Answer.filterM_eq_ok fun x member => ?_
  rw [membersAt_of_scope read, Array.mem_toList_iff] at member
  obtain ⟨a, symbol⟩ := hasSymbol_iff.mp (consistent.hasSymbol_of_listed read member)
  rw [body?_of_symbol symbol, bodyAt_of_symbol symbol]
  rfl

theorem mem_plainAt_iff (consistent : t.Consistent) (given : t.HasScope s) :
    x ∈ t.plainAt s ↔ t.owningScope? x = .ok (some s) ∧ t.body? x = .ok none := by
  have listed := (consistent.plainMembers_eq given).1
  rw [plainAt, List.mem_filter, consistent.mem_symbolsOf_iff listed]
  refine and_congr_right fun home => ?_
  obtain ⟨a, symbol, _⟩ := owningScope?_eq_ok_iff.mp home
  rw [body?_of_symbol symbol, bodyAt_of_symbol symbol, Except.ok.injEq, Option.isNone_iff_eq_none]

end Consistent

/-! ### Levels -/

/-- How many steps outwards lead from a scope to one around it. -/
def stepsUp (t : Table) (s q : ScopeId) : Nat := ((t.enclosingPath q).toOption.getD []).idxOf s

theorem stepsUp_of_walk {path : List ScopeId} (walk : Walk t.enclosing? q path) :
    t.stepsUp s q = path.idxOf s := by
  rw [stepsUp, enclosingPath_eq_ok_iff.mpr walk]
  rfl

theorem Consistent.stepsUp_self (consistent : t.Consistent) (given : t.HasScope s) :
    t.stepsUp s s = 0 := by
  obtain ⟨path, walk⟩ := consistent.rooted given
  obtain ⟨rest, rfl⟩ := walk.eq_cons
  rw [stepsUp_of_walk walk, List.idxOf_cons_self]

/-- From a scope directly inside another, one more step leads to that. -/
theorem Consistent.stepsUp_succ (consistent : t.Consistent) (forest : t.Forest)
    (inside : Inside t.nestedScopes s q)
    (leads : Relation.ReflTransGen (Inside t.nestedScopes) q r) :
    t.stepsUp s r = t.stepsUp q r + 1 := by
  have goes := (consistent.treelike forest).outward inside
  obtain ⟨inner, outer, way, _⟩ :=
    (consistent.liesBelow_iff forest (hasScope_of_enclosing? goes)).mpr leads
  have walk := enclosingPath_eq_ok_iff.mp way
  obtain ⟨rest, shape, further⟩ := walk.suffix.further goes
  obtain ⟨around, rfl⟩ := further.eq_cons
  cases shape
  have once := List.nodup_append.mp walk.nodup
  have before : ∀ o ∈ q :: s :: around, o ∉ inner := fun o later first =>
    once.2.2 o first o later rfl
  have apart : q ≠ s := by
    rintro rfl
    simp at once
  rw [stepsUp_of_walk walk, stepsUp_of_walk walk,
    List.idxOf_append_of_notMem (before s (by simp)),
    List.idxOf_append_of_notMem (before q (by simp)), List.idxOf_cons_self,
    List.idxOf_cons_ne _ apart, List.idxOf_cons_self]

/-! ### Lines -/

/-- The lines for a scope by itself. -/
def sectionAt (t : Table) (level : Nat) (s : ScopeId) : List OutlineLine :=
  ⟨level, .header s⟩ :: (t.plainAt s).map fun x => ⟨level + 1, .entry x⟩

/-- An outline goes through the scopes in order. By induction on the order, which follows the
recursion of the outline. -/
theorem Consistent.outlineWithin_eq (consistent : t.Consistent) (forest : t.Forest)
    (given : t.HasScope s) (preorder : Preorder t.nestedScopes s order) {depth level : Nat}
    {lines : List OutlineLine} (outlined : t.outlineWithin depth level s = .ok lines) :
    lines = order.flatMap fun q => t.sectionAt (level + t.stepsUp s q) q := by
  unfold Preorder at preorder
  induction preorder generalizing depth level lines with
  | @node s here inside f found listed below ih =>
    cases found
    cases depth with
    | zero => cases outlined
    | succ depth =>
      have known : ∀ q ∈ inside, t.HasScope q := fun q member =>
        hasScope_of_enclosing? ((consistent.treelike forest).outward ⟨inside, listed, member⟩)
      rw [outlineWithin, (consistent.plainMembers_eq given).2, Answer.ok_bind, listed,
        Answer.ok_bind] at outlined
      obtain ⟨lists, deeper, outlined⟩ := Answer.bind_eq_ok_iff.mp outlined
      have answered : ∀ q ∈ inside, t.outlineWithin depth (level + 1) q =
          .ok ((f q).flatMap fun r => t.sectionAt (level + t.stepsUp s r) r) := by
        intro q member
        obtain ⟨r, value⟩ := Answer.exists_mapM_iff.mp ⟨lists, deeper⟩ q member
        rw [value, ih q member (known q member) value]
        refine congrArg Except.ok (List.flatMap_congr fun r within => ?_)
        rw [consistent.stepsUp_succ forest ⟨inside, listed, member⟩
          (Preorder.mem_iff (below q member) |>.mp within)]
        congr 1
        omega
      cases (Answer.mapM_eq_ok answered).symm.trans deeper
      cases outlined
      rw [List.flatMap_append, List.flatMap_singleton, consistent.stepsUp_self given,
        Nat.add_zero, List.flatMap_assoc]
      rfl

/-! ### Texts -/

/-- The lines of a scope in the outline of another: its name at the level of the steps that lead
outwards to the other, and one level deeper its members without a body. -/
def sectionText (t : Table) (s q : ScopeId) : Answer (List String) := do
  let level := (← t.enclosingPath q).idxOf s
  let name ← t.scopeName q
  let entries ← (← t.plainMembers q).mapM t.displaySymbol
  return t.indented level name :: entries.map (t.indented (level + 1))

/-- No indent is longer than a text can be, at any of the scopes and one level deeper. -/
def IndentsFit (t : Table) (s : ScopeId) (order : List ScopeId) : Prop :=
  ∀ q ∈ order, ∀ path, t.enclosingPath q = .ok path →
    t.config.indentWidth * (path.idxOf s + 1) ≤ Config.longestText

theorem reach_of_mem_sectionAt {line : OutlineLine} {level : Nat}
    (member : line ∈ t.sectionAt level s) : line.reach = level + 1 := by
  rcases List.mem_cons.mp member with rfl | member
  · rfl
  · obtain ⟨x, _, rfl⟩ := List.mem_map.mp member
    rfl

/-- Where no type occurs in itself, all that a table has given out has a text. -/
theorem Reachable.itemText_eq (reachable : t.Reachable) (acyclic : t.types.Acyclic)
    {item : OutlineItem} (given : t.HasItem item) :
    t.itemText item = .ok ((t.itemText item).toOption.getD "") := by
  have told : (t.itemText item).Given := by
    cases item with
    | header q => exact reachable.consistent.exists_scopeName given
    | entry x => exact reachable.consistent.given_displaySymbol reachable.laid acyclic given
  obtain ⟨text, written⟩ := told
  rw [written]
  rfl

theorem Reachable.sectionText_eq (reachable : t.Reachable) (acyclic : t.types.Acyclic)
    (given : t.HasScope q) :
    t.sectionText s q = .ok ((t.sectionAt (t.stepsUp s q) q).map t.wording) := by
  have consistent := reachable.consistent
  obtain ⟨path, walk⟩ := consistent.rooted given
  have header : t.HasItem (.header q) := given
  have name : t.scopeName q = .ok ((t.itemText (.header q)).toOption.getD "") :=
    reachable.itemText_eq acyclic header
  have entries : (t.plainAt q).mapM t.displaySymbol =
      .ok ((t.plainAt q).map fun x => (t.itemText (.entry x)).toOption.getD "") := by
    refine Answer.mapM_eq_ok fun x member => ?_
    obtain ⟨a, symbol, _⟩ :=
      owningScope?_eq_ok_iff.mp ((consistent.mem_plainAt_iff given).mp member).1
    have entry : t.HasItem (.entry x) := hasSymbol_iff.mpr ⟨a, symbol⟩
    exact reachable.itemText_eq acyclic entry
  rw [sectionText, enclosingPath_eq_ok_iff.mpr walk, Answer.ok_bind, name, Answer.ok_bind,
    (consistent.plainMembers_eq given).2, Answer.ok_bind, entries, Answer.ok_bind,
    stepsUp_of_walk walk, sectionAt, List.map_cons, List.map_map, List.map_map]
  rfl

/-! ### The order of the lines -/

/-- How the lines of the outline of `s` are ordered. It goes through `s` and the scopes below it
once, each after the one around it; and `entries` are the members without a body of each, in the
order of their definition. -/
structure Arranged (t : Table) (s : ScopeId) (order : List ScopeId)
    (entries : List (List SymbolId)) : Prop where
  scopes : ∃ below, t.allNestedScopes s = .ok below ∧ order.Perm (s :: below)
  once : order.Nodup
  after : ∀ q ∈ order, q ≠ s → ∃ o, t.enclosing? q = .ok (some o) ∧ [o, q].Sublist order
  within : ∀ q ∈ order, ∃ path, t.enclosingPath q = .ok path ∧ s ∈ path
  plain : order.mapM t.plainMembers = .ok entries
  sorted : ∀ q ∈ order, ∃ members plain, t.symbolsOf q = .ok members ∧
    t.plainMembers q = .ok plain ∧ plain.Sublist members
  apart : entries.flatten.Nodup
  mem_entries : ∀ x, x ∈ entries.flatten ↔
    t.body? x = .ok none ∧ ∃ q ∈ order, t.owningScope? x = .ok (some q)

namespace Consistent

/-- The scopes in order are the scope and those below it. -/
theorem perm_below (consistent : t.Consistent) (forest : t.Forest) (given : t.HasScope s)
    (preorder : Preorder t.nestedScopes s order) :
    ∃ below, t.allNestedScopes s = .ok below ∧ order.Perm (s :: below) := by
  obtain ⟨below, listed, _, distinct, lies⟩ := consistent.allNestedScopes_eq forest given
  have apart : s ∉ below := fun member => ((lies s).mp member).1 rfl
  refine ⟨below, listed, (List.perm_ext_iff_of_nodup (preorder.nodup (consistent.treelike forest))
    (List.nodup_cons.mpr ⟨apart, distinct⟩)).mpr fun q => ?_⟩
  rw [preorder.mem_iff, List.mem_cons, lies, consistent.liesBelow_iff forest given]
  by_cases same : q = s
  · subst same
    exact iff_of_true .refl (.inl rfl)
  · simp [same]

/-- The plain members of different scopes are different, as each is at home in one. -/
theorem nodup_plain (consistent : t.Consistent) (known : ∀ q ∈ order, t.HasScope q)
    (once : order.Nodup) : (order.flatMap t.plainAt).Nodup := by
  refine List.nodup_flatMap.mpr ⟨fun q member => ?_, ?_⟩
  · exact (consistent.nodup_symbolsOf (consistent.plainMembers_eq (known q member)).1).filter _
  · refine once.imp_of_mem fun {p q} first second distinct x here there => ?_
    have home := ((consistent.mem_plainAt_iff (known p first)).mp here).1
    rw [((consistent.mem_plainAt_iff (known q second)).mp there).1] at home
    exact distinct (Option.some.inj (Except.ok.inj home)).symm

theorem mem_plain_iff (consistent : t.Consistent) (known : ∀ q ∈ order, t.HasScope q) :
    x ∈ order.flatMap t.plainAt ↔
      t.body? x = .ok none ∧ ∃ q ∈ order, t.owningScope? x = .ok (some q) := by
  rw [List.mem_flatMap]
  constructor
  · rintro ⟨q, member, here⟩
    obtain ⟨home, bodiless⟩ := (consistent.mem_plainAt_iff (known q member)).mp here
    exact ⟨bodiless, q, member, home⟩
  · rintro ⟨bodiless, q, member, home⟩
    exact ⟨q, member, (consistent.mem_plainAt_iff (known q member)).mpr ⟨home, bodiless⟩⟩

theorem arranged (consistent : t.Consistent) (forest : t.Forest) (given : t.HasScope s)
    (preorder : Preorder t.nestedScopes s order) : t.Arranged s order (order.map t.plainAt) := by
  have tree := consistent.treelike forest
  have within : ∀ q ∈ order, ∃ path, Walk t.enclosing? q path ∧ s ∈ path := by
    intro q member
    obtain ⟨inner, outer, way, _⟩ :=
      (consistent.liesBelow_iff forest given).mpr (preorder.mem_iff.mp member)
    exact ⟨_, enclosingPath_eq_ok_iff.mp way, by simp⟩
  have known : ∀ q ∈ order, t.HasScope q := by
    intro q member
    obtain ⟨path, walk, _⟩ := within q member
    exact hasScope_of_mem_walk walk walk.mem_start
  constructor
  case scopes => exact consistent.perm_below forest given preorder
  case once => exact preorder.nodup tree
  case after =>
    intro q member other
    obtain ⟨o, inside, order⟩ := preorder.after member other
    exact ⟨o, tree.outward inside, order⟩
  case within =>
    intro q member
    obtain ⟨path, walk, inside⟩ := within q member
    exact ⟨path, enclosingPath_eq_ok_iff.mpr walk, inside⟩
  case plain =>
    exact Answer.mapM_eq_ok fun q member => (consistent.plainMembers_eq (known q member)).2
  case sorted =>
    intro q member
    obtain ⟨listed, plain⟩ := consistent.plainMembers_eq (known q member)
    exact ⟨_, _, listed, plain, List.filter_sublist⟩
  case apart => exact consistent.nodup_plain known (preorder.nodup tree)
  case mem_entries => exact fun x => consistent.mem_plain_iff known

end Consistent

/-- The outline of a scope is one section after the other. -/
theorem Consistent.outline_eq (consistent : t.Consistent) (forest : t.Forest)
    (given : t.HasScope s) (preorder : Preorder t.nestedScopes s order) :
    t.outline s = .ok (order.flatMap fun q => t.sectionAt (t.stepsUp s q) q) := by
  obtain ⟨lines, outlined, _⟩ := consistent.exists_outline forest given
  have sections := consistent.outlineWithin_eq forest given preorder outlined
  simp only [Nat.zero_add] at sections
  exact sections ▸ outlined

/-- The lines of a section all need the same room. -/
theorem Consistent.outlineFits_iff (consistent : t.Consistent) (forest : t.Forest)
    (given : t.HasScope s) (preorder : Preorder t.nestedScopes s order) :
    t.OutlineFits s ↔ t.IndentsFit s order := by
  have outlined := consistent.outline_eq forest given preorder
  constructor
  · intro fits q member path way
    have header : ⟨t.stepsUp s q, .header q⟩ ∈ t.sectionAt (t.stepsUp s q) q :=
      List.mem_cons_self
    rw [← stepsUp_of_walk (enclosingPath_eq_ok_iff.mp way)]
    exact fits _ outlined _ (List.mem_flatMap.mpr ⟨q, member, header⟩)
  · intro fits lines outlined' line member
    cases Except.ok.inj (outlined.symm.trans outlined')
    obtain ⟨q, inside, within⟩ := List.mem_flatMap.mp member
    obtain ⟨path, way, _⟩ := (consistent.arranged forest given preorder).within q inside
    rw [reach_of_mem_sectionAt within, stepsUp_of_walk (enclosingPath_eq_ok_iff.mp way)]
    exact fits q inside path way

/-- In every reachable table without a type that occurs in itself, the outline of a scope has a
text just when neither an indent nor the whole is too long, and the text is written section by
section. -/
theorem Reachable.rendered (reachable : t.Reachable) (acyclic : t.types.Acyclic)
    (given : t.HasScope s) : ∃ order entries sections, t.Arranged s order entries ∧
      order.mapM (t.sectionText s) = .ok sections ∧
      ∀ text, t.renderScope s = .ok text ↔ t.IndentsFit s order ∧
        text = String.join sections.flatten ∧ text.utf8ByteSize ≤ Config.longestText := by
  have consistent := reachable.consistent
  have forest := reachable.forest
  obtain ⟨_, _, gathered, _⟩ := consistent.allNestedScopes_eq forest given
  obtain ⟨order, preorder⟩ := Preorder.exists_of_gathered gathered
  have arranged := consistent.arranged forest given preorder
  have room := consistent.outlineFits_iff forest given preorder
  have outlined := consistent.outline_eq forest given preorder
  obtain ⟨lines, outlined', _, written⟩ :=
    consistent.renderScope_eq_ok_iff forest reachable.laid acyclic given
  cases Except.ok.inj (outlined.symm.trans outlined')
  refine ⟨order, _, order.map fun q => (t.sectionAt (t.stepsUp s q) q).map t.wording, arranged,
    Answer.mapM_eq_ok fun q member => ?_, fun text => ?_⟩
  · obtain ⟨path, way, _⟩ := arranged.within q member
    have walk := enclosingPath_eq_ok_iff.mp way
    exact reachable.sectionText_eq acyclic (hasScope_of_mem_walk walk walk.mem_start)
  · rw [written, room, ← List.flatMap_def, ← List.map_flatMap]

/-- A function with a variable and a block, in which there are a struct with a field and another
variable. -/
def storeyed : Run where
  config := {}
  operations := [
    .declare "f" (.function none), .define .global ⟨0⟩, .declare "x" (.var none),
    .define ⟨2⟩ ⟨1⟩, .openBlock ⟨2⟩, .declare "s" .structType, .define ⟨3⟩ ⟨2⟩,
    .declare "y" (.field none), .define ⟨4⟩ ⟨3⟩, .declare "x" (.var none), .define ⟨3⟩ ⟨4⟩]
  accepted := by decide +kernel

theorem storeyed_rendered : storeyed.final.Reachable ∧ storeyed.final.types.Acyclic ∧
    storeyed.final.HasScope ⟨2⟩ ∧
    storeyed.final.renderScope ⟨2⟩ = .ok
      "f\n    f.x\n    local\n        local.x\n        s\n            s.y\n" ∧
    ∃ order entries sections, storeyed.final.Arranged ⟨2⟩ order entries ∧
      order.mapM (storeyed.final.sectionText ⟨2⟩) = .ok sections ∧
      storeyed.final.IndentsFit ⟨2⟩ order ∧ String.join sections.flatten =
        "f\n    f.x\n    local\n        local.x\n        s\n            s.y\n" := by
  have reachable := storeyed.reachable storeyed.operations.length
  have acyclic : storeyed.final.types.Acyclic := Pool.acyclic_of_earlier (by decide +kernel)
  have given : storeyed.final.HasScope ⟨2⟩ := by decide +kernel
  have known : storeyed.final.renderScope ⟨2⟩ = .ok
      "f\n    f.x\n    local\n        local.x\n        s\n            s.y\n" := by
    decide +kernel
  obtain ⟨order, entries, sections, arranged, listed, written⟩ :=
    Reachable.rendered reachable acyclic given
  obtain ⟨fits, whole, _⟩ := (written _).mp known
  exact ⟨reachable, acyclic, given, known, order, entries, sections, arranged, listed, fits,
    whole.symm⟩

/-- An empty function in a table whose indents are as wide as no text can be. -/
def widest : Run where
  config := { indentWidth := 1 <<< 63 }
  operations := [.declare "f" (.function none), .define .global ⟨0⟩]
  accepted := by decide +kernel

/-- The name of the function needs no indent, but is not written. -/
theorem widest_not_rendered : widest.final.Reachable ∧ widest.final.types.Acyclic ∧
    widest.final.HasScope ⟨2⟩ ∧ widest.final.allNestedScopes ⟨2⟩ = .ok [] ∧
    widest.final.symbolsOf ⟨2⟩ = .ok [] ∧ widest.final.sectionText ⟨2⟩ ⟨2⟩ = .ok ["f\n"] ∧
    widest.final.renderScope ⟨2⟩ ≠ .ok "f\n" ∧
    widest.final.renderScope ⟨2⟩ = .error .textOverflow :=
  ⟨widest.reachable widest.operations.length, Pool.acyclic_of_earlier (by decide +kernel),
    by decide +kernel, by decide +kernel, by decide +kernel, by decide +kernel,
    by decide +kernel, by decide +kernel⟩

end Table

end Scoping
