import Mathlib.Data.List.Chain
import Scoping.Proofs.Carried
import Scoping.Proofs.Chain
import Scoping.Proofs.Forest

/-!
# Chains are orbits

From class to superclass the way goes on until there is none, or until it comes to a class
that it met before. These are the classes of the chain, whether the way stops, comes round
to its start, or runs into a cycle further up. The scopes that are asked one after the other
from the body of a class on are the bodies of the same classes.
-/

namespace Scoping

/-- The points that `next` leads to one after the other from `x` on, up to the first one
from which it leads nowhere, or back. -/
structure Orbit {α : Type} (next : α → Answer (Option α)) (x : α) (l : List α) : Prop where
  starts : l.head? = some x
  distinct : l.Nodup
  follows : l.IsChain fun a b => next a = .ok (some b)
  closed : ∀ z, l.getLast? = some z → ∃ r, next z = .ok r ∧ ∀ y, r = some y → y ∈ l

namespace Orbit

variable {α : Type} {next : α → Answer (Option α)} {x : α} {l m : List α}

theorem eq_cons (orbit : Orbit next x l) : ∃ rest, l = x :: rest := by
  cases l with
  | nil => cases orbit.starts
  | cons y rest =>
    cases orbit.starts
    exact ⟨rest, rfl⟩

/-- From one point on there is only one way to go, if not one length of it. -/
theorem prefix_or_prefix (hl : (x :: l).IsChain fun a b => next a = .ok (some b))
    (hm : (x :: m).IsChain fun a b => next a = .ok (some b)) : l <+: m ∨ m <+: l := by
  induction l generalizing x m with
  | nil => exact .inl List.nil_prefix
  | cons y l ih =>
    cases m with
    | nil => exact .inr List.nil_prefix
    | cons z m =>
      obtain ⟨goes, hl⟩ := List.isChain_cons_cons.mp hl
      obtain ⟨goes', hm⟩ := List.isChain_cons_cons.mp hm
      cases Except.ok.inj (goes.symm.trans goes')
      exact (ih hl hm).imp (List.prefix_cons_inj y).mpr (List.prefix_cons_inj y).mpr

/-- An orbit cannot be continued, as its next point would be one that it met before. -/
theorem eq_of_prefix (hl : Orbit next x l) (hm : Orbit next x m) (shorter : l <+: m) : l = m := by
  obtain ⟨rest, rfl⟩ := shorter
  cases rest with
  | nil => rw [List.append_nil]
  | cons y rest =>
    -- where `l` ends, `m` would have to go on to a point that `l` has met
    exfalso
    obtain ⟨above, rfl⟩ := hl.eq_cons
    obtain ⟨z, last⟩ : ∃ z, (x :: above).getLast? = some z :=
      ⟨_, List.getLast?_eq_some_getLast (by simp)⟩
    obtain ⟨_, _, joint⟩ := List.isChain_append.mp hm.follows
    have goes := joint z last y rfl
    obtain ⟨r, known, back⟩ := hl.closed z last
    have met : y ∈ x :: above := back y (Except.ok.inj (known.symm.trans goes))
    exact (List.nodup_append.mp hm.distinct).2.2 y met y List.mem_cons_self rfl

theorem unique (hl : Orbit next x l) (hm : Orbit next x m) : l = m := by
  obtain ⟨above, rfl⟩ := hl.eq_cons
  obtain ⟨above', rfl⟩ := hm.eq_cons
  rcases prefix_or_prefix hl.follows hm.follows with shorter | shorter
  · exact hl.eq_of_prefix hm ((List.prefix_cons_inj x).mpr shorter)
  · exact (hm.eq_of_prefix hl ((List.prefix_cons_inj x).mpr shorter)).symm

end Orbit

namespace Table

variable {t : Table} {up : Ancestry} {x y C D P : SymbolId} {l seen above : List SymbolId}
  {steps k : Nat} {s b : ScopeId}

/-! ### The chain of superclasses -/

/-- An ascent goes from superclass to superclass, and ends where there is none or where the
next one was seen. -/
theorem follows_ancestorsWithin (found : ancestorsWithin up steps seen x = .ok l)
    (here : x ∈ seen) : (x :: l).IsChain (fun a b => up a = .ok (some b)) ∧
      ∀ z, (x :: l).getLast? = some z →
        ∃ r, up z = .ok r ∧ ∀ y, r = some y → y ∈ seen ∨ y ∈ l := by
  induction steps generalizing x seen l with
  | zero => cases found
  | succ steps ih =>
    obtain ⟨r, known, found⟩ := Answer.bind_eq_ok_iff.mp found
    cases r with
    | none =>
      cases found
      refine ⟨List.isChain_singleton x, ?_⟩
      rintro _ ⟨⟩
      exact ⟨none, known, by simp⟩
    | some P =>
      by_cases again : P ∈ seen
      · simp only [again, if_true] at found
        cases found
        refine ⟨List.isChain_singleton x, ?_⟩
        rintro _ ⟨⟩
        refine ⟨some P, known, ?_⟩
        rintro _ ⟨⟩
        exact .inl again
      · simp only [again, if_false] at found
        obtain ⟨rest, further, shape⟩ := Answer.bind_eq_ok_iff.mp found
        cases shape
        obtain ⟨follows, closed⟩ := ih further List.mem_cons_self
        refine ⟨List.isChain_cons_cons.mpr ⟨known, follows⟩, fun z last => ?_⟩
        rw [List.getLast?_cons_cons] at last
        obtain ⟨r, known', back⟩ := closed z last
        refine ⟨r, known', fun y next => ?_⟩
        rcases back y next with met | met
        · rcases List.mem_cons.mp met with rfl | met
          · exact .inr List.mem_cons_self
          · exact .inl met
        · exact .inr (List.mem_cons_of_mem P met)

theorem orbit_of_chain (chain : t.chain C = .ok l) : Orbit t.superclass C l := by
  have distinct := nodup_chain chain
  obtain ⟨above, rfl, found⟩ := chain_eq_ok chain
  obtain ⟨follows, closed⟩ := follows_ancestorsWithin found (List.mem_singleton_self C)
  refine ⟨rfl, distinct, follows, fun z last => ?_⟩
  obtain ⟨r, known, back⟩ := closed z last
  refine ⟨r, known, fun y next => ?_⟩
  rcases back y next with met | met
  · exact List.mem_singleton.mp met ▸ List.mem_cons_self
  · exact List.mem_cons_of_mem C met

/-- What has an orbit has a superclass, or is known to have none. -/
theorem hasSymbol_of_orbit (orbit : Orbit t.superclass C l) : t.HasSymbol C := by
  obtain ⟨above, rfl⟩ := orbit.eq_cons
  cases above with
  | nil =>
    obtain ⟨r, known, _⟩ := orbit.closed C rfl
    exact hasSymbol_of_superclassWithin known
  | cons P above => exact hasSymbol_of_superclassWithin (List.isChain_cons_cons.mp orbit.follows).1

theorem Consistent.chain_eq_ok_iff (consistent : t.Consistent) :
    t.chain C = .ok l ↔ Orbit t.superclass C l := by
  refine ⟨orbit_of_chain, fun orbit => ?_⟩
  obtain ⟨m, chain, _⟩ := consistent.exists_chain (hasSymbol_of_orbit orbit)
  rw [chain, orbit.unique (orbit_of_chain chain)]

/-! ### The bodies along the chain -/

/-- The scope that is asked so many steps after a scope; none where there are no more. -/
def parentAfter (t : Table) : Nat → ScopeId → Answer (Option ScopeId)
  | 0, s => return some s
  | k + 1, s => do
    match ← t.parentScope? s with
    | none => return none
    | some above => t.parentAfter k above

namespace Consistent

theorem body?_of_aggregate (consistent : t.Consistent) (aggregate : t.IsAggregate C) :
    ∃ s, t.body? C = .ok (some s) := by
  obtain ⟨a, s, _, symbol, body, _⟩ := consistent.contents aggregate
  exact ⟨s, body?_eq_ok_iff.mpr ⟨a, symbol, body⟩⟩

theorem parentScope?_of_superclass_none (consistent : t.Consistent)
    (body : t.body? C = .ok (some s)) (top : t.superclass C = .ok none) :
    t.parentScope? s = t.owningScope? C := by
  obtain ⟨a, symbol, inside⟩ := body?_eq_ok_iff.mp body
  obtain ⟨c, read, owned, around⟩ := consistent.body symbol inside
  rw [parentScope?, read, owningScope?_eq_ok_iff.mpr ⟨a, symbol, rfl⟩]
  simp only [Answer.ok_bind, owned, top, around, Answer.pure_eq_ok]

theorem parentScope?_of_superclass (consistent : t.Consistent) (body : t.body? C = .ok (some s))
    (up : t.superclass C = .ok (some P)) (above : t.body? P = .ok (some b)) :
    t.parentScope? s = .ok (some b) := by
  obtain ⟨a, symbol, inside⟩ := body?_eq_ok_iff.mp body
  obtain ⟨c, read, owned, _⟩ := consistent.body symbol inside
  rw [parentScope?, read]
  simp only [Answer.ok_bind, owned, up, above, Option.some_or, Answer.pure_eq_ok]

/-- From body to body the same way leads as from class to class. -/
theorem parentAfter_of_isChain (consistent : t.Consistent)
    (follows : (C :: above).IsChain fun a b => t.superclass a = .ok (some b))
    (body : t.body? C = .ok (some b)) (nth : (C :: above)[k]? = some D) :
    ∃ s, t.body? D = .ok (some s) ∧ t.parentAfter k b = .ok (some s) := by
  induction k generalizing C above b with
  | zero =>
    cases nth
    exact ⟨b, body, rfl⟩
  | succ k ih =>
    cases above with
    | nil => simp at nth
    | cons P above =>
      obtain ⟨up, follows⟩ := List.isChain_cons_cons.mp follows
      obtain ⟨q, body'⟩ := consistent.body?_of_aggregate (consistent.isAggregate_superclass up)
      obtain ⟨s, inside, reached⟩ := ih follows body' nth
      refine ⟨s, inside, ?_⟩
      rw [parentAfter, consistent.parentScope?_of_superclass body up body']
      exact reached

end Consistent

/-- The chain of a symbol is the orbit of `superclass` from it, and no longer than there are
symbols. From the body of a class so many steps to the scope that is asked next lead to the
body of that class of the chain. From the last of them the next step leads to where the last
class is defined, or back to the body of a class of the chain. -/
theorem Reachable.chain_is_orbit (reachable : t.Reachable) :
    (∀ C, t.HasSymbol C → ∃ above, t.superclassChain C = .ok above ∧
      t.chain C = .ok (C :: above) ∧ Orbit t.superclass C (C :: above) ∧
      (∀ l, Orbit t.superclass C l → l = C :: above) ∧
      (C :: above).length ≤ t.symbolCount) ∧
    (∀ C above, t.IsAggregate C → t.superclassChain C = .ok above →
      ∃ b, t.body? C = .ok (some b) ∧
        (∀ k D, (C :: above)[k]? = some D →
          ∃ s, t.body? D = .ok (some s) ∧ t.parentAfter k b = .ok (some s)) ∧
        ∀ L s, (C :: above).getLast? = some L → t.body? L = .ok (some s) →
          (t.superclass L = .ok none ∧ t.parentScope? s = t.owningScope? L) ∨
          ∃ P q, t.superclass L = .ok (some P) ∧ P ∈ C :: above ∧
            t.body? P = .ok (some q) ∧ t.parentScope? s = .ok (some q)) := by
  have consistent := reachable.consistent
  constructor
  · intro C given
    obtain ⟨l, chain, inside⟩ := consistent.exists_chain given
    have orbit := consistent.chain_eq_ok_iff.mp chain
    obtain ⟨above, rfl⟩ := orbit.eq_cons
    refine ⟨above, ?_, chain, orbit, fun m other => ?_, ?_⟩
    · rw [superclassChain, chain]
      rfl
    · exact Except.ok.inj ((consistent.chain_eq_ok_iff.mpr other).symm.trans chain)
    · exact length_le_of_nodup orbit.distinct inside
  · intro C above aggregate found
    obtain ⟨l, chain, shape⟩ := Answer.bind_eq_ok_iff.mp found
    have orbit := consistent.chain_eq_ok_iff.mp chain
    obtain ⟨above', rfl⟩ := orbit.eq_cons
    cases shape
    obtain ⟨b, body⟩ := consistent.body?_of_aggregate aggregate
    refine ⟨b, body, fun k D => consistent.parentAfter_of_isChain orbit.follows body, ?_⟩
    intro L s last here
    obtain ⟨r, known, back⟩ := orbit.closed L last
    cases r with
    | none => exact .inl ⟨known, consistent.parentScope?_of_superclass_none here known⟩
    | some P =>
      obtain ⟨q, body'⟩ := consistent.body?_of_aggregate (consistent.isAggregate_superclass known)
      exact .inr ⟨P, q, known, back P rfl, body',
        consistent.parentScope?_of_superclass here known body'⟩

/-- `Deep` extends `A`, and `A` and `B` extend each other: from the body of `Deep` the way
leads to those of `A` and `B`, and from the last of them back to that of `A`. -/
theorem tangled_chain_is_orbit : tangled.final.Reachable ∧ tangled.final.IsAggregate ⟨3⟩ ∧
    tangled.final.superclassChain ⟨3⟩ = .ok [⟨0⟩, ⟨1⟩] ∧
    Orbit tangled.final.superclass ⟨3⟩ [⟨3⟩, ⟨0⟩, ⟨1⟩] ∧
    tangled.final.parentAfter 1 ⟨5⟩ = .ok (some ⟨2⟩) ∧
    tangled.final.parentAfter 2 ⟨5⟩ = .ok (some ⟨3⟩) ∧
    tangled.final.parentScope? ⟨3⟩ = .ok (some ⟨2⟩) := by
  have reachable := tangled.reachable tangled.operations.length
  have aggregate : tangled.final.IsAggregate ⟨3⟩ := by decide +kernel
  have chain : tangled.final.superclassChain ⟨3⟩ = .ok [⟨0⟩, ⟨1⟩] := by decide +kernel
  have bodyA : tangled.final.body? ⟨0⟩ = .ok (some ⟨2⟩) := by decide +kernel
  have bodyB : tangled.final.body? ⟨1⟩ = .ok (some ⟨3⟩) := by decide +kernel
  have bodyDeep : tangled.final.body? ⟨3⟩ = .ok (some ⟨5⟩) := by decide +kernel
  obtain ⟨orbits, bodies⟩ := Reachable.chain_is_orbit reachable
  obtain ⟨_, found, _, orbit, _⟩ := orbits ⟨3⟩ (by decide +kernel)
  cases Except.ok.inj (chain.symm.trans found)
  obtain ⟨b, body, along, closed⟩ := bodies ⟨3⟩ [⟨0⟩, ⟨1⟩] aggregate chain
  cases Except.ok.inj (bodyDeep.symm.trans body)
  obtain ⟨p, first, one⟩ := along 1 ⟨0⟩ rfl
  obtain ⟨q, second, two⟩ := along 2 ⟨1⟩ rfl
  cases Except.ok.inj (bodyA.symm.trans first)
  cases Except.ok.inj (bodyB.symm.trans second)
  have up : tangled.final.superclass ⟨1⟩ = .ok (some ⟨0⟩) := by decide +kernel
  refine ⟨reachable, aggregate, chain, orbit, one, two, ?_⟩
  rcases closed ⟨1⟩ ⟨3⟩ rfl bodyB with ⟨top, _⟩ | ⟨P, s, above, _, there, back⟩
  · cases up.symm.trans top
  · cases up.symm.trans above
    cases bodyA.symm.trans there
    exact back

end Table

end Scoping
