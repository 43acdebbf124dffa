import Scoping.Proofs.Chain
import Scoping.Proofs.Dispatch

/-!
# Inherited members

The list of the visible members of a class is that of its superclass, with the members that
the class overrides replaced where they stand, and the new ones after it. It is worked out
class by class along the chain, the furthest one first; that the chain of a class goes on
with the chain of its superclass makes one step of it out of all but the last.

On a cycle there is no furthest class to start with, and it is only said which members are
listed: for every name the member that the nearest class defines.
-/

namespace Scoping

namespace Table

variable {t : Table} {x y m C D P : SymbolId} {k : Kind} {l listed : List SymbolId}

/-- Symbols are called the same just when they have the same name. -/
theorem Named.symbolName_eq_iff (named : t.Named) (here : t.HasSymbol x) (there : t.HasSymbol y) :
    t.symbolName x = t.symbolName y ↔ t.nameAt x = t.nameAt y := by
  obtain ⟨a, symbol⟩ := hasSymbol_iff.mp here
  obtain ⟨b, symbol'⟩ := hasSymbol_iff.mp there
  rw [nameAt_of_symbol symbol, nameAt_of_symbol symbol', Option.some.injEq]
  constructor
  · intro same
    obtain ⟨text, called⟩ := named.exists_symbolName here
    obtain ⟨a', read, reads⟩ := named.symbolName_eq_ok_iff.mp called
    obtain ⟨b', read', reads'⟩ := named.symbolName_eq_ok_iff.mp (same ▸ called)
    cases Except.ok.inj (symbol.symm.trans read)
    cases Except.ok.inj (symbol'.symm.trans read')
    have found := (Names.find?_eq_some_iff named.sound).mpr reads
    rw [(Names.find?_eq_some_iff named.sound).mpr reads'] at found
    exact (Option.some.inj found).symm
  · intro same
    simp only [symbolName, name, symbol, symbol', Answer.ok_bind, Answer.pure_eq_ok, same]

theorem Named.mapM_symbolName (named : t.Named) (given : ∀ x ∈ l, t.HasSymbol x)
    (distinct : (l.map t.nameAt).Nodup) :
    ∃ texts, l.mapM t.symbolName = .ok texts ∧ texts.Nodup := by
  let called (x : SymbolId) : String := (t.symbolName x).toOption.getD ""
  have known : ∀ x ∈ l, t.symbolName x = .ok (called x) := by
    intro x member
    obtain ⟨text, name⟩ := named.exists_symbolName (given x member)
    simp [called, name, Except.toOption]
  refine ⟨l.map called, Answer.mapM_eq_ok known, ?_⟩
  refine distinct.of_map.map_on fun x here y there same => ?_
  refine List.inj_on_of_nodup_map distinct here there ?_
  rw [← named.symbolName_eq_iff (given x here) (given y there), known x here, known y there, same]

/-- The members of a kind stand in the order in which they were defined. -/
theorem Reachable.order_own (reachable : t.Reachable) (aggregate : t.IsAggregate D) (k : Kind) :
    ∃ places : List Nat, (t.own k D).mapM t.insertionOrder? = .ok (places.map some) ∧
      places.Pairwise (· < ·) := by
  have consistent := reachable.consistent
  obtain ⟨_, s, c, _, _, scope, _, listed⟩ := consistent.contents aggregate
  have members : t.symbolsOf s = .ok (t.contents D) :=
    symbolsOf_eq_ok_iff.mpr ⟨c, scope, listed.symm⟩
  have distinct := consistent.nodup_contents D
  have known : ∀ m ∈ t.own k D, t.insertionOrder? m = .ok (some ((t.contents D).idxOf m)) := by
    intro m member
    have nth := List.getElem?_idxOf (mem_own.mp member).1
    exact ((consistent.getElem?_symbolsOf_iff reachable.positioned members).mp nth).2
  have increasing : ((t.contents D).map (t.contents D).idxOf).Pairwise (· < ·) := by
    rw [List.pairwise_map, List.pairwise_iff_getElem]
    intro i j before after less
    rwa [distinct.idxOf_getElem, distinct.idxOf_getElem]
  refine ⟨(t.own k D).map (t.contents D).idxOf, ?_, ?_⟩
  · rw [Answer.mapM_eq_ok known, List.map_map]
    rfl
  · exact increasing.sublist (List.filter_sublist.map _)

/-- The chain comes to a class that defines the member, and no class before it defines a
member of that kind that is called the same. -/
def Nearest (t : Table) (k : Kind) (l : List SymbolId) (m : SymbolId) : Prop :=
  ∃ before D after, l = before ++ D :: after ∧ t.Member D m k ∧
    ∀ E ∈ before, ∀ y, t.Member E y k → t.symbolName y ≠ t.symbolName m

theorem Consistent.mem_layered_iff_nearest (consistent : t.Consistent) (named : t.Named)
    (aggregates : ∀ D ∈ l, t.IsAggregate D) : m ∈ t.layered k l ↔ t.Nearest k l m := by
  rw [consistent.mem_layered_iff]
  refine exists_congr fun before => exists_congr fun D => exists_congr fun after =>
    and_congr_right ?_
  rintro rfl
  have here : t.IsAggregate D := aggregates D (by simp)
  have members : ∀ E ∈ before, ∀ y, y ∈ t.own k E ↔ t.Member E y k := by
    intro E nearer y
    rw [consistent.mem_own_iff, and_iff_right (aggregates E (List.mem_append_left _ nearer))]
  have home : m ∈ t.own k D ↔ t.Member D m k := by
    rw [consistent.mem_own_iff, and_iff_right here]
  rw [← home]
  refine and_congr_right fun member => ?_
  refine forall₂_congr fun E nearer => forall_congr' fun y => ?_
  rw [← members E nearer y]
  refine imp_congr_right fun inside => not_congr ?_
  exact (named.symbolName_eq_iff (consistent.hasSymbol_of_mem_own inside)
    (consistent.hasSymbol_of_mem_own member)).symm

/-- How a list of members of a kind comes about from the classes of the chain. -/
structure Merged (t : Table) (k : Kind) (C : SymbolId) (listed : List SymbolId) : Prop where
  distinct : ∃ texts, listed.mapM t.symbolName = .ok texts ∧ texts.Nodup
  nearest : ∃ l, t.chain C = .ok l ∧ ∀ m, m ∈ listed ↔ t.Nearest k l m
  top : t.superclass C = .ok none → t.definedMembers k C = .ok listed
  below : ∀ P l, t.superclass C = .ok (some P) → t.chain P = .ok l → C ∉ l →
    ∃ inherited own, t.visibleMembers k P = .ok inherited ∧ t.definedMembers k C = .ok own ∧
      listed = merge t.symbolName inherited own
  ordered : ∃ own, ∃ places : List Nat, t.definedMembers k C = .ok own ∧
    own.mapM t.insertionOrder? = .ok (places.map some) ∧ places.Pairwise (· < ·)

theorem Reachable.merged (reachable : t.Reachable) (aggregate : t.IsAggregate C) (k : Kind) :
    ∃ listed, t.visibleMembers k C = .ok listed ∧ t.Merged k C listed := by
  have consistent := reachable.consistent
  have named := reachable.named
  have given := aggregate.hasSymbol
  have defined := consistent.definedMembers aggregate k
  obtain ⟨l, chain, _⟩ := consistent.settles.chainVia given
  have aggregates := consistent.isAggregate_of_mem_chain aggregate chain
  refine ⟨_, consistent.visibleMembers given chain k, ?_⟩
  constructor
  case distinct =>
    exact named.mapM_symbolName (fun x => consistent.hasSymbol_of_mem_layered)
      (names_layered k l)
  case nearest => exact ⟨l, chain, fun m => consistent.mem_layered_iff_nearest named aggregates⟩
  case top =>
    intro none
    cases Except.ok.inj (chain.symm.trans (lineage_iff.mpr (.stop none)).1)
    have alone : overlay t.nameAt [] (t.own k C) = t.own k C := by
      rw [overlay_eq_merge (by simp) (consistent.names_own k C)]
      simp [merge]
    rw [defined, layered, layered, alone]
  case below =>
    intro P above superclass chain' outside
    cases Except.ok.inj (chain.symm.trans (consistent.chain_cons superclass chain' outside))
    have given' := (consistent.isAggregate_superclass superclass).hasSymbol
    refine ⟨_, _, consistent.visibleMembers given' chain' k, defined, ?_⟩
    rw [layered, overlay_eq_merge (names_layered k above) (consistent.names_own k C)]
    refine (merge_congr fun x inside y own => ?_).symm
    exact named.symbolName_eq_iff (consistent.hasSymbol_of_mem_own own)
      (consistent.hasSymbol_of_mem_layered inside)
  case ordered =>
    obtain ⟨places, order, increasing⟩ := reachable.order_own aggregate k
    exact ⟨_, places, defined, order, increasing⟩

/-- In every reachable table the fields and the methods visible in a struct or class are
called differently. With no superclass they are those that it defines. Where the chain of
the superclass does not come back to it, they are those of the superclass, each replaced in
its place by the own one that is called the same, and then the others of its own, in the
order of their definition. In every case the member listed under a name is that of the
nearest class of the chain that defines one. -/
theorem Reachable.visible_members (reachable : t.Reachable) (aggregate : t.IsAggregate C) :
    ∃ fs ms, t.fields C = .ok fs ∧ t.methods C = .ok ms ∧
      t.Merged .field C fs ∧ t.Merged .method C ms := by
  obtain ⟨fs, fields, merged⟩ := reachable.merged aggregate .field
  obtain ⟨ms, methods, merged'⟩ := reachable.merged aggregate .method
  exact ⟨fs, ms, fields, methods, merged, merged'⟩

end Table

namespace Run

open Table

/-- Two classes that name each other as superclass, with a method of one name in both. -/
def crosswise : Run where
  config := {}
  operations := [
    .declare "A" (.classType (some "B")), .define .global ⟨0⟩,
    .declare "B" (.classType (some "A")), .define .global ⟨1⟩,
    .declare "m" (.method none), .define ⟨2⟩ ⟨2⟩,
    .declare "n" (.method none), .define ⟨2⟩ ⟨3⟩,
    .declare "m" (.method none), .define ⟨3⟩ ⟨4⟩,
    .declare "k" (.method none), .define ⟨3⟩ ⟨5⟩]
  accepted := by decide +kernel

theorem hierarchy_visible_members :
    (hierarchy.final.Reachable ∧ hierarchy.final.IsAggregate ⟨7⟩ ∧
      hierarchy.final.superclass ⟨7⟩ = .ok (some ⟨4⟩) ∧
      hierarchy.final.chain ⟨4⟩ = .ok [⟨4⟩, ⟨0⟩] ∧
      hierarchy.final.methods ⟨4⟩ = .ok [⟨1⟩, ⟨6⟩, ⟨5⟩] ∧
      hierarchy.final.definedMethods ⟨7⟩ = .ok [⟨8⟩, ⟨9⟩, ⟨10⟩] ∧
      hierarchy.final.methods ⟨7⟩ =
        .ok (merge hierarchy.final.symbolName [⟨1⟩, ⟨6⟩, ⟨5⟩] [⟨8⟩, ⟨9⟩, ⟨10⟩])) ∧
    crosswise.final.Reachable ∧ crosswise.final.IsAggregate ⟨0⟩ ∧
      crosswise.final.superclass ⟨0⟩ = .ok (some ⟨1⟩) ∧ crosswise.final.chain ⟨1⟩ = .ok [⟨1⟩, ⟨0⟩] ∧
      ∃ ms, crosswise.final.methods ⟨0⟩ = .ok ms ∧
        ∀ m, m ∈ ms ↔ crosswise.final.Nearest .method [⟨0⟩, ⟨1⟩] m := by
  have reachable := hierarchy.reachable hierarchy.operations.length
  have aggregate : hierarchy.final.IsAggregate ⟨7⟩ := by decide +kernel
  have superclass : hierarchy.final.superclass ⟨7⟩ = .ok (some ⟨4⟩) := by decide +kernel
  have chain : hierarchy.final.chain ⟨4⟩ = .ok [⟨4⟩, ⟨0⟩] := by decide +kernel
  have above : hierarchy.final.methods ⟨4⟩ = .ok [⟨1⟩, ⟨6⟩, ⟨5⟩] := by decide +kernel
  have own : hierarchy.final.definedMethods ⟨7⟩ = .ok [⟨8⟩, ⟨9⟩, ⟨10⟩] := by decide +kernel
  have reachable' := crosswise.reachable crosswise.operations.length
  have aggregate' : crosswise.final.IsAggregate ⟨0⟩ := by decide +kernel
  have chain' : crosswise.final.chain ⟨0⟩ = .ok [⟨0⟩, ⟨1⟩] := by decide +kernel
  refine ⟨⟨reachable, aggregate, superclass, chain, above, own, ?_⟩, reachable', aggregate',
    by decide +kernel, by decide +kernel, ?_⟩
  · obtain ⟨_, ms, _, methods, _, merged⟩ := Reachable.visible_members reachable aggregate
    obtain ⟨inherited, defined, inherits, defines, rfl⟩ :=
      merged.below ⟨4⟩ _ superclass chain (by decide)
    cases Except.ok.inj (inherits.symm.trans above)
    cases Except.ok.inj (defines.symm.trans own)
    exact methods
  · obtain ⟨_, ms, _, methods, _, merged⟩ := Reachable.visible_members reachable' aggregate'
    obtain ⟨l, known, nearest⟩ := merged.nearest
    cases Except.ok.inj (known.symm.trans chain')
    exact ⟨ms, methods, nearest⟩

end Run

end Scoping
