import Scoping.Proofs.Visible
import Scoping.Proofs.Later

/-!
# Chains of classes

The chain of a class is the class itself and then the chain of its superclass, as long as
that does not come back to the class. No class is met twice on a chain, cycles or not, so
that each of its classes has a place and there are classes nearer than it.
-/

namespace Scoping

namespace Table

variable {t : Table} {up : Ancestry} {x y C D P m : SymbolId} {k : Kind}
  {l seen rest : List SymbolId} {steps : Nat}

instance decidableIsAggregate (t : Table) (x : SymbolId) : Decidable (t.IsAggregate x) :=
  decidable_of_iff ((t.kind x).map Kind.isAggregate = .ok true) <| by
    rw [IsAggregate, kind]
    cases t.symbol x with
    | error e => simp [Except.map]
    | ok a => simp [Except.map]

/-- An ascent meets nothing twice, and nothing that was seen before. -/
theorem nodup_ancestorsWithin (found : ancestorsWithin up steps seen x = .ok l) :
    l.Nodup ∧ ∀ y ∈ l, y ∉ seen := by
  induction steps generalizing x seen l with
  | zero => cases found
  | succ steps ih =>
    obtain ⟨r, _, found⟩ := Answer.bind_eq_ok_iff.mp found
    cases r with
    | none =>
      cases found
      simp
    | some above =>
      by_cases again : above ∈ seen
      · simp only [again, if_true] at found
        cases found
        simp
      · simp only [again, if_false] at found
        obtain ⟨rest, further, shape⟩ := Answer.bind_eq_ok_iff.mp found
        cases shape
        obtain ⟨distinct, fresh⟩ := ih further
        refine ⟨List.nodup_cons.mpr ⟨fun met => fresh above met List.mem_cons_self, distinct⟩, ?_⟩
        intro y met
        rcases List.mem_cons.mp met with rfl | met
        · exact again
        · exact fun before => fresh y met (List.mem_cons_of_mem above before)

theorem chain_eq_ok (chain : t.chain C = .ok l) : ∃ rest, l = C :: rest ∧
    ancestorsWithin t.superclass (t.symbols.size + 1) [C] C = .ok rest := by
  obtain ⟨rest, found, shape⟩ := Answer.bind_eq_ok_iff.mp chain
  cases shape
  exact ⟨rest, rfl, found⟩

theorem nodup_chain (chain : t.chain C = .ok l) : l.Nodup := by
  obtain ⟨rest, rfl, found⟩ := chain_eq_ok chain
  obtain ⟨distinct, fresh⟩ := nodup_ancestorsWithin found
  exact List.nodup_cons.mpr ⟨fun met => fresh C met List.mem_cons_self, distinct⟩

/-- An ascent that does not meet a symbol goes the same way when it was seen before. -/
theorem ancestorsWithin_of_unmet {more : List SymbolId}
    (found : ancestorsWithin up steps seen x = .ok l) (unmet : C ∉ l)
    (also : ∀ y, y ∈ more ↔ y ∈ seen ∨ y = C) : ancestorsWithin up steps more x = .ok l := by
  induction steps generalizing x seen l more with
  | zero => cases found
  | succ steps ih =>
    obtain ⟨r, known, found⟩ := Answer.bind_eq_ok_iff.mp found
    rw [ancestorsWithin, known, Answer.ok_bind]
    cases r with
    | none => exact found
    | some above =>
      by_cases again : above ∈ seen
      · have again' : above ∈ more := (also above).mpr (.inl again)
        simp only [again, again', if_true] at found ⊢
        exact found
      · simp only [again, if_false] at found
        obtain ⟨rest, further, shape⟩ := Answer.bind_eq_ok_iff.mp found
        cases shape
        rw [List.mem_cons, not_or] at unmet
        have fresh : above ∉ more := fun seen =>
          (also above).mp seen |>.elim again (Ne.symm unmet.1)
        have also' : ∀ y, y ∈ above :: more ↔ y ∈ above :: seen ∨ y = C := by
          intro y
          rw [List.mem_cons, List.mem_cons, also, or_assoc]
        simp only [fresh, if_false]
        rw [ih further unmet.2 also']
        rfl

/-- Where the chain of the superclass does not come back to a class, the chain of the class
goes on with it. -/
theorem Consistent.chain_cons (consistent : t.Consistent) (above : t.superclass C = .ok (some P))
    (chain : t.chain P = .ok l) (outside : C ∉ l) : t.chain C = .ok (C :: l) := by
  obtain ⟨rest, rfl, found⟩ := chain_eq_ok chain
  rw [List.mem_cons, not_or] at outside
  have given : t.HasSymbol C := hasSymbol_of_superclassWithin above
  have given' : t.HasSymbol P := (consistent.isAggregate_superclass above).hasSymbol
  -- the ascent from the class has one step less left when it comes to the superclass
  have distinct : [P, C].Nodup := by simpa using Ne.symm outside.1
  have seen : ∀ y ∈ [P, C], t.HasSymbol y := by
    intro y member
    rcases List.mem_pair.mp member with rfl | rfl
    · exact given'
    · exact given
  have enough : t.symbols.size < t.symbols.size + [P, C].length := by simp
  obtain ⟨rest', found', _⟩ :=
    consistent.settles.ancestorsWithin given' distinct seen enough
  have longer := ancestorsWithin_of_agree found' (fun _ _ => rfl) (Nat.le_succ t.symbols.size)
  have also : ∀ y, y ∈ [P, C] ↔ y ∈ [P] ∨ y = C := by
    intro y
    rw [List.mem_pair, List.mem_singleton]
  cases (ancestorsWithin_of_unmet found outside.2 also).symm.trans longer
  have unseen : P ∉ [C] := by simpa using Ne.symm outside.1
  rw [Table.chain, chainVia, ancestorsWithin, above]
  simp only [Answer.ok_bind, unseen, if_false, found', Answer.pure_eq_ok]

/-! ### The nearest member of a kind -/

/-- A member of a kind is listed just when no nearer class has one of that kind and name. -/
theorem Consistent.mem_layered_iff (consistent : t.Consistent) :
    m ∈ t.layered k l ↔ ∃ before D after, l = before ++ D :: after ∧ m ∈ t.own k D ∧
      ∀ E ∈ before, ∀ y ∈ t.own k E, t.nameAt y ≠ t.nameAt m := by
  induction l with
  | nil => simp [layered]
  | cons C above ih =>
    rw [layered, mem_overlay_iff (names_layered k above) (consistent.names_own k C), ih]
    constructor
    · rintro (here | ⟨⟨before, D, after, rfl, member, unnamed⟩, fresh⟩)
      · exact ⟨[], C, above, rfl, here, by simp⟩
      · refine ⟨C :: before, D, after, rfl, member, fun E nearer y inside same => ?_⟩
        rcases List.mem_cons.mp nearer with rfl | nearer
        · exact fresh (same ▸ List.mem_map_of_mem inside)
        · exact unnamed E nearer y inside same
    · rintro ⟨before, D, after, split, member, unnamed⟩
      cases before with
      | nil =>
        cases split
        exact .inl member
      | cons E before =>
        cases split
        refine .inr ⟨⟨before, D, after, rfl, member, ?_⟩, fun listed => ?_⟩
        · exact fun E nearer => unnamed E (List.mem_cons_of_mem _ nearer)
        · obtain ⟨y, inside, same⟩ := List.mem_map.mp listed
          exact unnamed _ List.mem_cons_self y inside same

end Table

end Scoping
