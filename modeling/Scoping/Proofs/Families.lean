import Mathlib.Data.List.Induction
import Mathlib.Logic.Relation
import Scoping.Lexicon.Shared

/-!
# Families of holders

Holders are numbered in the order in which they were made, and each is either new or cloned from
an older one. Two holders are of one family when they are linked by cloning. A family goes back
to the one holder in it that is new, so that families can be told apart by their founders.
-/

namespace Scoping

namespace Holder

variable {origins : List (Option Holder)} {origin : Option Holder} {g h : Holder}

/-- A holder that is there is the newest one or was there before. -/
theorem lt_succ_iff {n : Nat} : h.index < n + 1 ↔ h.index < n ∨ h = ⟨n⟩ :=
  Nat.lt_succ_iff_lt_or_eq.trans (or_congr_right ⟨congrArg mk, congrArg index⟩)

/-- The second holder was made by cloning the first one, which was there before. Of each holder
it is known which one it was cloned from, if any. -/
def Cloned (origins : List (Option Holder)) (g h : Holder) : Prop :=
  origins[h.index]? = some (some g) ∧ g.index < h.index

/-- Two holders are linked by cloning. -/
def SameFamily (origins : List (Option Holder)) : Holder → Holder → Prop :=
  Relation.EqvGen (Cloned origins)

/-- For each holder the one that its family goes back to. -/
def founders (origins : List (Option Holder)) : List Holder :=
  origins.foldl (fun founders origin =>
    founders ++ [(origin.bind fun g => founders[g.index]?).getD ⟨founders.length⟩]) []

/-- The holder that the family of `h` goes back to. -/
def founder (origins : List (Option Holder)) (h : Holder) : Holder :=
  (founders origins)[h.index]?.getD h

theorem founders_concat : founders (origins ++ [origin]) = founders origins ++
    [(origin.bind fun g => (founders origins)[g.index]?).getD ⟨(founders origins).length⟩] :=
  List.foldl_append ..

@[simp]
theorem length_founders : (founders origins).length = origins.length := by
  induction origins using List.reverseRecOn with
  | nil => rfl
  | append_singleton origins origin ih =>
    rw [founders_concat, List.length_append, List.length_append, ih]
    rfl

theorem founder_concat_of_lt (before : h.index < origins.length) :
    founder (origins ++ [origin]) h = founder origins h := by
  rw [founder, founders_concat, List.getElem?_append_left (length_founders ▸ before)]
  rfl

theorem founder_of_le (behind : origins.length ≤ h.index) : founder origins h = h := by
  rw [founder, List.getElem?_eq_none (length_founders ▸ behind)]
  rfl

/-- A new holder founds a family. -/
theorem founder_fresh : founder (origins ++ [none]) ⟨origins.length⟩ = ⟨origins.length⟩ := by
  simp [founder, founders_concat]

/-- A clone belongs to the family of the holder that it was cloned from. -/
theorem founder_clone (before : g.index < origins.length) :
    founder (origins ++ [some g]) ⟨origins.length⟩ = founder origins g := by
  simp [founder, founders_concat, before]

theorem founder_last (origins : List (Option Holder)) (origin : Option Holder) :
    founder (origins ++ [origin]) ⟨origins.length⟩ = ⟨origins.length⟩ ∨
      ∃ g, origin = some g ∧ g.index < origins.length := by
  rcases origin with _ | g
  · exact .inl founder_fresh
  · rcases Nat.lt_or_ge g.index origins.length with before | behind
    · exact .inr ⟨g, rfl, before⟩
    · exact .inl (by simp [founder, founders_concat, behind])

theorem founder_lt (before : h.index < origins.length) :
    (founder origins h).index < origins.length := by
  induction origins using List.reverseRecOn generalizing h with
  | nil => exact absurd before (Nat.not_lt_zero _)
  | append_singleton origins origin ih =>
    rw [List.length_append, List.length_singleton] at before ⊢
    rcases lt_succ_iff.mp before with earlier | rfl
    · rw [founder_concat_of_lt earlier]
      exact Nat.lt_succ_of_lt (ih earlier)
    · rcases founder_last origins origin with itself | ⟨g, rfl, earlier⟩
      · rw [itself]
        exact Nat.lt_succ_self _
      · rw [founder_clone earlier]
        exact Nat.lt_succ_of_lt (ih earlier)

theorem Cloned.founder_eq (cloned : Cloned origins g h) :
    founder origins g = founder origins h := by
  induction origins using List.reverseRecOn with
  | nil => cases cloned.1
  | append_singleton origins origin ih =>
    obtain ⟨made, before⟩ := cloned
    have short := (List.getElem?_eq_some_iff.mp made).1
    rw [List.length_append, List.length_singleton] at short
    rcases lt_succ_iff.mp short with earlier | rfl
    · rw [List.getElem?_append_left earlier] at made
      rw [founder_concat_of_lt (Nat.lt_trans before earlier), founder_concat_of_lt earlier]
      exact ih ⟨made, before⟩
    · rw [List.getElem?_concat_length, Option.some.injEq] at made
      rw [made, founder_concat_of_lt before, founder_clone before]

theorem SameFamily.concat (family : SameFamily origins g h) (origin : Option Holder) :
    SameFamily (origins ++ [origin]) g h := by
  refine Relation.EqvGen.mono (fun g h cloned => ?_) _ _ family
  have before := (List.getElem?_eq_some_iff.mp cloned.1).1
  exact ⟨(List.getElem?_append_left before).trans cloned.1, cloned.2⟩

/-- Every holder is linked to the one that its family goes back to. -/
theorem sameFamily_founder (origins : List (Option Holder)) (h : Holder) :
    SameFamily origins h (founder origins h) := by
  induction origins using List.reverseRecOn generalizing h with
  | nil => exact .refl h
  | append_singleton origins origin ih =>
    by_cases there : h.index < origins.length + 1
    swap
    · rw [founder_of_le (by simpa using there)]
      exact .refl h
    rcases lt_succ_iff.mp there with earlier | rfl
    · rw [founder_concat_of_lt earlier]
      exact (ih h).concat origin
    · rcases founder_last origins origin with itself | ⟨g, rfl, earlier⟩
      · rw [itself]
        exact .refl _
      · rw [founder_clone earlier]
        have cloned : Cloned (origins ++ [some g]) g ⟨origins.length⟩ :=
          ⟨List.getElem?_concat_length, earlier⟩
        exact .trans _ _ _ (.symm _ _ (.rel _ _ cloned)) ((ih g).concat (some g))

/-- Families are told apart by the holders that they go back to. -/
theorem sameFamily_iff : SameFamily origins g h ↔ founder origins g = founder origins h := by
  constructor
  · intro family
    induction family with
    | rel g h cloned => exact cloned.founder_eq
    | refl h => rfl
    | symm g h _ ih => exact ih.symm
    | trans f g h _ _ first second => exact first.trans second
  · intro same
    refine .trans _ _ _ (sameFamily_founder origins g) ?_
    rw [same]
    exact .symm _ _ (sameFamily_founder origins h)

instance (origins : List (Option Holder)) (g h : Holder) : Decidable (SameFamily origins g h) :=
  decidable_of_iff _ sameFamily_iff.symm

theorem sameFamily_concat_iff (there : g.index < origins.length) (here : h.index < origins.length) :
    SameFamily (origins ++ [origin]) g h ↔ SameFamily origins g h := by
  rw [sameFamily_iff, sameFamily_iff, founder_concat_of_lt there, founder_concat_of_lt here]

theorem not_sameFamily_fresh (there : g.index < origins.length) :
    ¬ SameFamily (origins ++ [none]) g ⟨origins.length⟩ := by
  rw [sameFamily_iff, founder_concat_of_lt there, founder_fresh]
  exact fun same => Nat.ne_of_lt (founder_lt there) (congrArg index same)

theorem sameFamily_clone_iff (there : g.index < origins.length) (here : h.index < origins.length) :
    SameFamily (origins ++ [some h]) g ⟨origins.length⟩ ↔ SameFamily origins g h := by
  rw [sameFamily_iff, sameFamily_iff, founder_concat_of_lt there, founder_clone here]

end Holder

end Scoping
