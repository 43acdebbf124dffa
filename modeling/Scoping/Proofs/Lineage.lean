import Scoping.Proofs.Ascent
import Scoping.Proofs.Termination

/-!
# Lineages

A class has a lineage when the way through its superclasses comes to a class that has
none. The chain of a class is such a way, unless it runs into a cycle.
-/

namespace Scoping

namespace Table

variable {t u : Table} {up : Ancestry} {x y D : SymbolId} {l rest seen : List SymbolId}
  {steps : Nat}

/-- The chain of a class is acyclic, and the last class of it has no superclass. -/
def Lineage (t : Table) (x : SymbolId) (l : List SymbolId) : Prop :=
  t.chain x = .ok l ∧ t.superclass (l.getLastD x) = .ok none

instance decidableLineage (t : Table) (x : SymbolId) (l : List SymbolId) :
    Decidable (t.Lineage x l) := instDecidableAnd

theorem ancestorsWithin_of_walk (walk : Walk up x l) (fresh : ∀ y ∈ l.tail, y ∉ seen)
    (enough : l.length ≤ steps) : ancestorsWithin up steps seen x = .ok l.tail := by
  induction walk generalizing seen steps with
  | stop ends =>
    obtain ⟨steps, rfl⟩ : ∃ k, steps = k + 1 := ⟨steps - 1, by simp at enough; omega⟩
    rw [ancestorsWithin, ends]
    rfl
  | @step x y l goes walk ih =>
    rw [List.length_cons] at enough
    obtain ⟨steps, rfl⟩ : ∃ k, steps = k + 1 := ⟨steps - 1, by omega⟩
    obtain ⟨rest, rfl⟩ := walk.eq_cons
    have unseen : y ∉ seen := fresh y List.mem_cons_self
    have apart := (List.nodup_cons.mp walk.nodup).1
    have fresh' : ∀ z ∈ (y :: rest).tail, z ∉ y :: seen := by
      intro z member again
      rcases List.mem_cons.mp again with rfl | again
      · exact apart member
      · exact fresh z (List.mem_cons_of_mem y member) again
    have further := ih fresh' (Nat.le_of_succ_le_succ enough)
    rw [ancestorsWithin, goes]
    simp only [Answer.ok_bind, unseen, if_false, further, Answer.pure_eq_ok, List.tail_cons]

theorem walk_of_ancestorsWithin (found : ancestorsWithin up steps seen x = .ok rest)
    (ends : up ((x :: rest).getLastD x) = .ok none) : Walk up x (x :: rest) := by
  induction steps generalizing seen x rest with
  | zero => cases found
  | succ steps ih =>
    obtain ⟨r, known, found⟩ := Answer.bind_eq_ok_iff.mp found
    cases r with
    | none =>
      cases found
      exact .stop known
    | some above =>
      simp only at found
      split at found
      · cases found
        rw [List.getLastD_cons, List.getLastD_nil, known] at ends
        cases ends
      · obtain ⟨further, found', found⟩ := Answer.bind_eq_ok_iff.mp found
        cases found
        refine .step known (ih found' ?_)
        rw [List.getLastD_cons] at ends ⊢
        rw [List.getLastD_cons] at ends
        exact ends

theorem hasSymbol_of_mem_walk (walk : Walk t.superclass x l) (member : y ∈ l) :
    t.HasSymbol y := by
  obtain ⟨_, after, _, walk'⟩ := walk.from_mem member
  cases walk' with
  | stop ends => exact hasSymbol_of_superclassWithin ends
  | step goes _ => exact hasSymbol_of_superclassWithin goes

/-- A lineage is a way through superclasses that ends. -/
theorem lineage_iff : t.Lineage x l ↔ Walk t.superclass x l := by
  constructor
  · rintro ⟨chain, ends⟩
    obtain ⟨rest, found, shape⟩ := Answer.bind_eq_ok_iff.mp chain
    cases shape
    exact walk_of_ancestorsWithin found ends
  · intro walk
    have short := length_le_of_nodup walk.nodup fun y member => hasSymbol_of_mem_walk walk member
    obtain ⟨rest, rfl⟩ := walk.eq_cons
    have fresh : ∀ y ∈ (x :: rest).tail, y ∉ [x] := by
      intro y member same
      rw [List.mem_singleton.mp same] at member
      exact (List.nodup_cons.mp walk.nodup).1 member
    have found := ancestorsWithin_of_walk walk fresh (Nat.le_succ_of_le short)
    refine ⟨?_, ?_⟩
    · rw [chain, chainVia, found]
      rfl
    · obtain ⟨z, last, ends⟩ := walk.next_getLast
      rw [List.getLastD_eq_getLast?, last]
      exact ends

/-- A way that meets the start of one that ends is itself one that ends. -/
theorem walk_of_mem_ancestorsWithin {m : List SymbolId}
    (found : ancestorsWithin up steps seen x = .ok rest) (member : y ∈ x :: rest)
    (walk : Walk up y m) : ∃ l, Walk up x l := by
  induction steps generalizing seen x rest with
  | zero => cases found
  | succ steps ih =>
    rcases List.mem_cons.mp member with rfl | member
    · exact ⟨m, walk⟩
    · obtain ⟨r, known, found⟩ := Answer.bind_eq_ok_iff.mp found
      cases r with
      | none =>
        cases found
        simp at member
      | some above =>
        simp only at found
        split at found
        · cases found
          simp at member
        · obtain ⟨further, found', found⟩ := Answer.bind_eq_ok_iff.mp found
          cases found
          obtain ⟨l, walk'⟩ := ih found' member
          exact ⟨x :: l, .step known walk'⟩

theorem Lineage.walk (lineage : t.Lineage x l) : Walk t.superclass x l := lineage_iff.mp lineage

/-- The class above is the next one of the lineage. -/
theorem Lineage.superclass (lineage : t.Lineage D (D :: rest)) :
    rest = [] ∧ t.superclass D = .ok none ∨
      ∃ P, t.superclass D = .ok (some P) ∧ t.Lineage P rest := by
  cases lineage.walk with
  | stop ends => exact .inl ⟨rfl, ends⟩
  | step goes walk => exact .inr ⟨_, goes, lineage_iff.mpr walk⟩

theorem Lineage.of_superclass {P : SymbolId} (lineage : t.Lineage D (D :: rest))
    (above : t.superclass D = .ok (some P)) : t.Lineage P rest := by
  rcases lineage.superclass with ⟨_, last⟩ | ⟨P', above', further⟩
  · rw [above] at last
    cases last
  · rw [above, Except.ok.injEq, Option.some.injEq] at above'
    rwa [above']

theorem Lineage.unique {m : List SymbolId} (hl : t.Lineage x l) (hm : t.Lineage x m) : l = m :=
  hl.walk.unique hm.walk

/-- A chain with a class that has a lineage is a lineage. -/
theorem Lineage.of_mem_chain {m : List SymbolId} (lineage : t.Lineage y m)
    (chain : t.chain x = .ok l) (member : y ∈ l) : t.Lineage x l := by
  obtain ⟨rest, found, shape⟩ := Answer.bind_eq_ok_iff.mp chain
  cases shape
  obtain ⟨l, walk⟩ := walk_of_mem_ancestorsWithin found member lineage.walk
  have known := lineage_iff.mpr walk
  cases Except.ok.inj (chain.symm.trans known.1)
  exact known

end Table

end Scoping
