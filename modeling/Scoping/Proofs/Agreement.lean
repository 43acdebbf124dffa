import Scoping.Proofs.Merging

/-!
# Look-up and listing

A member is looked up from the nearest class on, and the visible members are listed from the
furthest one on. Under every name both come to the same member, with one exception: the
look-up stops at the nearest member of any kind, and the list of a kind passes over the
members of other kinds.
-/

namespace Scoping

namespace Table

variable {t : Table} {x y m C D : SymbolId} {k : Kind} {l listed : List SymbolId} {n : Name}
  {text : String} {found : Option SymbolId}

theorem Named.symbolName_iff_nameAt (named : t.Named) (known : t.names.find? text = some n) :
    t.symbolName x = .ok text ↔ t.nameAt x = some n := by
  rw [named.symbolName_eq_ok_iff, nameAt_eq_some_iff]
  refine exists_congr fun a => and_congr_right fun _ => ?_
  rw [← Names.find?_eq_some_iff named.sound, known, Option.some.injEq, eq_comm]

/-- Nothing is called by a string that has no name. -/
theorem Named.symbolName_ne (named : t.Named) (unknown : t.names.find? text = none) :
    t.symbolName x ≠ .ok text := by
  intro called
  obtain ⟨a, _, reads⟩ := named.symbolName_eq_ok_iff.mp called
  rw [(Names.find?_eq_some_iff named.sound).mpr reads] at unknown
  cases unknown

theorem kindOnly_eq (given : ∀ m, found = some m → t.HasSymbol m) (k : Kind) :
    t.kindOnly k found = .ok (found.filter fun m => t.kindAt m = some k) := by
  cases found with
  | none => rfl
  | some m =>
    obtain ⟨kind, read, known⟩ := kind_eq_ok (given m rfl)
    rw [kindOnly, Option.filter_some, read, known]
    by_cases same : kind = k
    · simp [same]
    · simp [same]

/-- The member that is called so in the first of the classes that has one. -/
def nearestCalled (t : Table) (text : String) (l : List SymbolId) : Option SymbolId :=
  (t.names.find? text).bind fun n => l.findSome? (t.memberAt n)

theorem Consistent.memberAt_eq_some_iff (consistent : t.Consistent) :
    t.memberAt n D = some m ↔ m ∈ t.contents D ∧ t.nameAt m = some n := by
  refine ⟨memberAt_eq_some, fun ⟨member, named⟩ => ?_⟩
  cases found : t.memberAt n D with
  | none => exact absurd named (memberAt_eq_none_iff.mp found m member)
  | some y =>
    obtain ⟨member', named'⟩ := memberAt_eq_some found
    rw [consistent.eq_of_nameAt_eq member' member (named'.trans named.symm)]

theorem Consistent.nearestCalled_eq_some_iff (consistent : t.Consistent) (named : t.Named) :
    t.nearestCalled text l = some m ↔ ∃ before D after, l = before ++ D :: after ∧
      m ∈ t.contents D ∧ t.symbolName m = .ok text ∧
      ∀ E ∈ before, ∀ y ∈ t.contents E, t.symbolName y ≠ .ok text := by
  cases known : t.names.find? text with
  | none =>
    have nothing : ∀ x, t.symbolName x ≠ .ok text := fun x => named.symbolName_ne known
    simp [nearestCalled, known, nothing]
  | some n =>
    have called : ∀ x, t.symbolName x = .ok text ↔ t.nameAt x = some n :=
      fun x => named.symbolName_iff_nameAt known
    rw [nearestCalled, known, Option.bind_some, List.findSome?_eq_some_iff]
    simp only [consistent.memberAt_eq_some_iff, memberAt_eq_none_iff, called, ne_eq, and_assoc]

theorem nearestCalled_append (t : Table) (text : String) (before after : List SymbolId) :
    t.nearestCalled text (before ++ after) =
      (t.nearestCalled text before).or (t.nearestCalled text after) := by
  cases known : t.names.find? text with
  | none => simp [nearestCalled, known]
  | some n => simp [nearestCalled, known, List.findSome?_append]

theorem Consistent.nearestCalled_isSome (consistent : t.Consistent) (named : t.Named)
    (inside : D ∈ l) (member : m ∈ t.contents D) (called : t.symbolName m = .ok text) :
    ∃ y, t.nearestCalled text l = some y := by
  obtain ⟨a, read, reads⟩ := named.symbolName_eq_ok_iff.mp called
  have known := (Names.find?_eq_some_iff named.sound).mpr reads
  rw [nearestCalled, known, Option.bind_some, ← Option.isSome_iff_exists, List.findSome?_isSome_iff]
  refine ⟨D, inside, ?_⟩
  rw [consistent.memberAt_eq_some_iff.mpr ⟨member, nameAt_of_symbol read⟩]
  rfl

theorem Consistent.resolveMember (consistent : t.Consistent) (aggregate : t.IsAggregate C)
    (chain : t.chain C = .ok l) (text : String) :
    t.resolveMember C text = .ok (t.nearestCalled text l) := by
  rw [Table.resolveMember, nearestCalled]
  cases t.names.find? text with
  | none => rfl
  | some n => exact consistent.memberNamed aggregate chain n

theorem Consistent.hasSymbol_of_nearestCalled (consistent : t.Consistent) (named : t.Named)
    (nearest : t.nearestCalled text l = some m) : t.HasSymbol m := by
  obtain ⟨_, _, _, _, member, _⟩ := (consistent.nearestCalled_eq_some_iff named).mp nearest
  exact consistent.hasSymbol_of_mem member

/-- One of the classes defines a member that is called so and is of another kind. -/
def Hides (t : Table) (k : Kind) (text : String) (classes : List SymbolId) : Prop :=
  ∃ E ∈ classes, ∃ y j, t.Member E y j ∧ j ≠ k ∧ t.symbolName y = .ok text

/-- What is looked up under a name is the only entry of that name, and an entry of that name
is what is looked up, unless a class nearer than the one that defines it has a member of
that name of another kind. -/
structure Agrees (t : Table) (k : Kind) (C : SymbolId) (text : String)
    (found : Option SymbolId) (listed : List SymbolId) : Prop where
  only : ∀ m, found = some m → (listed.filter fun y => t.symbolName y = .ok text) = [m]
  entry : ∀ m ∈ listed, t.symbolName m = .ok text → ∃ before D after,
    t.chain C = .ok (before ++ D :: after) ∧ D ∉ before ∧ t.Member D m k ∧
      (t.Hides k text before → found = none) ∧ (¬ t.Hides k text before → found = some m)

/-- Whatever is called so in one of the classes hides what comes after, when it is not of the
kind itself. -/
theorem Consistent.hides_iff (consistent : t.Consistent) {classes : List SymbolId}
    (aggregates : ∀ E ∈ classes, t.IsAggregate E)
    (unnamed : ∀ E ∈ classes, ∀ y, t.Member E y k → t.symbolName y ≠ .ok text) :
    t.Hides k text classes ↔ ∃ E ∈ classes, ∃ y ∈ t.contents E, t.symbolName y = .ok text := by
  refine exists_congr fun E => and_congr_right fun inside => exists_congr fun y => ?_
  constructor
  · rintro ⟨j, member, _, called⟩
    exact ⟨(mem_own.mp (consistent.mem_own_iff.mpr ⟨aggregates E inside, member⟩)).1, called⟩
  · rintro ⟨member, called⟩
    obtain ⟨j, _, kind⟩ := kind_eq_ok (consistent.hasSymbol_of_mem member)
    have known := consistent.member_of_mem member kind
    refine ⟨j, known, ?_, called⟩
    rintro rfl
    exact unnamed E inside y known called

theorem Consistent.filter_called (consistent : t.Consistent) (named : t.Named)
    (member : m ∈ t.layered k l) (called : t.symbolName m = .ok text) :
    ((t.layered k l).filter fun y => t.symbolName y = .ok text) = [m] := by
  have distinct : ((t.layered k l).map t.nameAt).Nodup := names_layered k l
  have given : ∀ y ∈ t.layered k l, t.HasSymbol y := fun y => consistent.hasSymbol_of_mem_layered
  calc (t.layered k l).filter (fun y => t.symbolName y = .ok text)
      = (t.layered k l).filter (fun y => y = m) := by
        refine List.filter_congr fun y inside => decide_eq_decide.mpr ?_
        rw [← called, named.symbolName_eq_iff (given y inside) (given m member)]
        exact ⟨List.inj_on_of_nodup_map distinct inside member, fun same => by rw [same]⟩
    _ = [m] := by
        rw [List.filter_eq, List.count_eq_one_of_mem distinct.of_map member]
        rfl

theorem Consistent.agrees (consistent : t.Consistent) (named : t.Named)
    (aggregate : t.IsAggregate C) (chain : t.chain C = .ok l) (k : Kind) (text : String) :
    t.Agrees k C text ((t.nearestCalled text l).filter fun m => t.kindAt m = some k)
      (t.layered k l) := by
  have aggregates := consistent.isAggregate_of_mem_chain aggregate chain
  constructor
  case only =>
    intro m found
    obtain ⟨nearest, kind⟩ := Option.filter_eq_some_iff.mp found
    rw [decide_eq_true_eq] at kind
    obtain ⟨before, D, after, split, member, called, unnamed⟩ :=
      (consistent.nearestCalled_eq_some_iff named).mp nearest
    refine consistent.filter_called named ?_ called
    rw [consistent.mem_layered_iff_nearest named aggregates]
    refine ⟨before, D, after, split, consistent.member_of_mem member kind, ?_⟩
    intro E nearer y inside same
    have own := consistent.mem_own_iff.mpr ⟨aggregates E (by simp [split, nearer]), inside⟩
    exact unnamed E nearer y (mem_own.mp own).1 (same.trans called)
  case entry =>
    intro m listed called
    obtain ⟨before, D, after, rfl, member, unnamed⟩ :=
      (consistent.mem_layered_iff_nearest named aggregates).mp listed
    have apart := (List.nodup_append.mp (nodup_chain chain)).2.2
    rw [called] at unnamed
    have nearer : ∀ E ∈ before, t.IsAggregate E :=
      fun E inside => aggregates E (List.mem_append_left _ inside)
    have own := mem_own.mp
      (consistent.mem_own_iff.mpr ⟨aggregates D (by simp), member⟩)
    refine ⟨before, D, after, chain, fun again => apart D again D (by simp) rfl, member, ?_, ?_⟩
    · intro hides
      rw [consistent.hides_iff nearer unnamed] at hides
      obtain ⟨E, inside, y, there, same⟩ := hides
      obtain ⟨z, first⟩ := consistent.nearestCalled_isSome named inside there same
      obtain ⟨_, F, _, split, here, called', _⟩ :=
        (consistent.nearestCalled_eq_some_iff named).mp first
      have other : t.kindAt z ≠ some k := by
        intro kind
        exact unnamed F (by simp [split]) z (consistent.member_of_mem here kind) called'
      rw [nearestCalled_append, first, Option.some_or, Option.filter_some,
        if_neg (by simpa using other)]
    · intro free
      rw [consistent.hides_iff nearer unnamed] at free
      have nearest : t.nearestCalled text (before ++ D :: after) = some m := by
        rw [consistent.nearestCalled_eq_some_iff named]
        refine ⟨before, D, after, rfl, own.1, called, fun E inside y there same => ?_⟩
        exact free ⟨E, inside, y, there, same⟩
      rw [nearest, Option.filter_some, if_pos (by simpa using own.2)]

/-- In every reachable table what is looked up in a struct or class as a field or as a method
is what it lists of that kind under the name, unless a member of another kind is nearer: then
nothing is found. A name is not a field and a method at once, and whichever it is found as, it
is the member of that name. -/
theorem Reachable.lookup_agrees (reachable : t.Reachable) (aggregate : t.IsAggregate C)
    (text : String) : ∃ member field method fs ms, t.resolveMember C text = .ok member ∧
      t.resolveField C text = .ok field ∧ t.resolveMethod C text = .ok method ∧
      t.fields C = .ok fs ∧ t.methods C = .ok ms ∧
      t.Agrees .field C text field fs ∧ t.Agrees .method C text method ms ∧
      (field = none ∨ method = none) ∧
      ∀ m, field = some m ∨ method = some m → member = some m := by
  have consistent := reachable.consistent
  have named := reachable.named
  have given := aggregate.hasSymbol
  obtain ⟨l, chain, _⟩ := consistent.settles.chainVia given
  have found := consistent.resolveMember aggregate chain text
  have ofKind : ∀ k, t.kindOnly k (t.nearestCalled text l) =
      .ok ((t.nearestCalled text l).filter fun m => t.kindAt m = some k) :=
    kindOnly_eq fun m => consistent.hasSymbol_of_nearestCalled named
  refine ⟨_, _, _, _, _, found, ?_, ?_, consistent.visibleMembers given chain .field,
    consistent.visibleMembers given chain .method,
    consistent.agrees named aggregate chain .field text,
    consistent.agrees named aggregate chain .method text, ?_, ?_⟩
  · rw [resolveField, found, Answer.ok_bind, ofKind]
  · rw [resolveMethod, found, Answer.ok_bind, ofKind]
  · cases t.nearestCalled text l with
    | none => exact .inl rfl
    | some m =>
      by_cases field : t.kindAt m = some .field
      · exact .inr (by simp [Option.filter_some, field])
      · exact .inl (by simp [Option.filter_some, field])
  · rintro m (field | method)
    · exact (Option.filter_eq_some_iff.mp field).1
    · exact (Option.filter_eq_some_iff.mp method).1

/-- A class with a method, a class below it with a field of the same name, and a third class
below with a method of its own. -/
def covered : Run where
  config := {}
  operations := [
    .declare "A" (.classType none), .define .global ⟨0⟩,
    .declare "m" (.method none), .define ⟨2⟩ ⟨1⟩,
    .declare "B" (.classType (some "A")), .define .global ⟨2⟩,
    .declare "m" (.field none), .define ⟨4⟩ ⟨3⟩,
    .declare "C" (.classType (some "B")), .define .global ⟨4⟩,
    .declare "n" (.method none), .define ⟨5⟩ ⟨5⟩]
  accepted := by decide +kernel

theorem covered_lookup_agrees : covered.final.Reachable ∧ covered.final.IsAggregate ⟨4⟩ ∧
    covered.final.methods ⟨4⟩ = .ok [⟨1⟩, ⟨5⟩] ∧
    covered.final.Agrees .method ⟨4⟩ "m" none [⟨1⟩, ⟨5⟩] ∧
    covered.final.Agrees .field ⟨4⟩ "m" (some ⟨3⟩) [⟨3⟩] ∧
    covered.final.Agrees .method ⟨4⟩ "n" (some ⟨5⟩) [⟨1⟩, ⟨5⟩] := by
  have reachable := covered.reachable covered.operations.length
  have aggregate : covered.final.IsAggregate ⟨4⟩ := by decide +kernel
  have fields : covered.final.fields ⟨4⟩ = .ok [⟨3⟩] := by decide +kernel
  have methods : covered.final.methods ⟨4⟩ = .ok [⟨1⟩, ⟨5⟩] := by decide +kernel
  have field : covered.final.resolveField ⟨4⟩ "m" = .ok (some ⟨3⟩) := by decide +kernel
  have method : covered.final.resolveMethod ⟨4⟩ "m" = .ok none := by decide +kernel
  have method' : covered.final.resolveMethod ⟨4⟩ "n" = .ok (some ⟨5⟩) := by decide +kernel
  obtain ⟨_, _, _, _, _, _, field₁, method₁, fields₁, methods₁, agreesF, agreesM, _⟩ :=
    Reachable.lookup_agrees reachable aggregate "m"
  obtain ⟨_, _, _, _, _, _, _, method₂, _, methods₂, _, agreesN, _⟩ :=
    Reachable.lookup_agrees reachable aggregate "n"
  cases Except.ok.inj (fields₁.symm.trans fields)
  cases Except.ok.inj (methods₁.symm.trans methods)
  cases Except.ok.inj (methods₂.symm.trans methods)
  cases Except.ok.inj (field₁.symm.trans field)
  cases Except.ok.inj (method₁.symm.trans method)
  cases Except.ok.inj (method₂.symm.trans method')
  exact ⟨reachable, aggregate, methods, agreesM, agreesF, agreesN⟩

end Table

end Scoping
