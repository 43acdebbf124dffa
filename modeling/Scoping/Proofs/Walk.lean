import Mathlib.Data.List.Nodup
import Scoping.Proofs.Answer

/-!
# Walks

Scopes are left for the scope around them, and classes for their superclass. A
walk goes on by such a step until there is none. It is determined by where it
starts, and therefore meets nothing twice.
-/

namespace Scoping

/-- The walk from a point by `next` ends, and these are the points that it meets. -/
inductive Walk {α : Type} (next : α → Answer (Option α)) : α → List α → Prop
  | stop {x : α} : next x = .ok none → Walk next x [x]
  | step {x y : α} {l : List α} : next x = .ok (some y) → Walk next y l → Walk next x (x :: l)

namespace Walk

variable {α : Type} {next : α → Answer (Option α)} {x y : α} {l m : List α}

theorem unique (hl : Walk next x l) (hm : Walk next x m) : l = m := by
  induction hl generalizing m with
  | stop ends =>
    cases hm with
    | stop _ => rfl
    | step goes _ => rw [ends] at goes; cases goes
  | step goes _ ih =>
    cases hm with
    | stop ends => rw [ends] at goes; cases goes
    | step goes' hm =>
      have same := Option.some.inj (Except.ok.inj (goes.symm.trans goes'))
      subst same
      rw [ih hm]

theorem eq_cons (hl : Walk next x l) : ∃ rest, l = x :: rest := by
  cases hl with
  | stop _ => exact ⟨[], rfl⟩
  | step _ _ => exact ⟨_, rfl⟩

theorem mem_start (hl : Walk next x l) : x ∈ l := by
  obtain ⟨rest, rfl⟩ := hl.eq_cons
  exact List.mem_cons_self

theorem length_pos (hl : Walk next x l) : 0 < l.length := by
  obtain ⟨rest, rfl⟩ := hl.eq_cons
  simp

/-- Where a walk takes a step, it is that point and the walk from the next. -/
theorem further (hl : Walk next x l) (goes : next x = .ok (some y)) :
    ∃ m, l = x :: m ∧ Walk next y m := by
  cases hl with
  | stop ends => cases ends.symm.trans goes
  | step goes' hm =>
    cases goes'.symm.trans goes
    exact ⟨_, rfl, hm⟩

/-- From every point that a walk meets, the rest of it is the walk from there. -/
theorem from_mem (hl : Walk next x l) (member : y ∈ l) :
    ∃ before after, l = before ++ after ∧ Walk next y after := by
  induction hl with
  | stop ends =>
    have same := List.mem_singleton.mp member
    subst same
    exact ⟨[], _, rfl, .stop ends⟩
  | @step x z l goes hl ih =>
    rcases List.mem_cons.mp member with same | later
    · subst same
      exact ⟨[], _, rfl, .step goes hl⟩
    · obtain ⟨before, after, split, walk⟩ := ih later
      exact ⟨x :: before, after, by rw [split]; rfl, walk⟩

theorem suffix {before after : List α} (hl : Walk next x (before ++ y :: after)) :
    Walk next y (y :: after) := by
  induction before generalizing x with
  | nil =>
    obtain ⟨rest, shape⟩ := hl.eq_cons
    cases shape
    exact hl
  | cons z before ih =>
    generalize split : z :: before ++ y :: after = m at hl
    cases hl with
    | stop _ => simp at split
    | step _ further =>
      cases split
      exact ih further

/-- The walk from a later point is no longer. -/
theorem length_le_of_mem (hl : Walk next x l) (member : y ∈ l) (hm : Walk next y m) :
    m.length ≤ l.length := by
  obtain ⟨before, after, split, walk⟩ := hl.from_mem member
  rw [hm.unique walk, split, List.length_append]
  omega

theorem nodup (hl : Walk next x l) : l.Nodup := by
  induction hl with
  | stop _ => simp
  | @step x z l goes hl ih =>
    refine List.nodup_cons.mpr ⟨?_, ih⟩
    intro again
    have shorter := hl.length_le_of_mem again (.step goes hl)
    simp only [List.length_cons] at shorter
    omega

/-- A walk goes the same way by every other step function that takes its steps. -/
theorem mono {other : α → Answer (Option α)} (hl : Walk next x l)
    (extending : ∀ a r, next a = .ok r → other a = .ok r) : Walk other x l := by
  induction hl with
  | stop ends => exact .stop (extending _ _ ends)
  | step goes _ ih => exact .step (extending _ _ goes) ih

/-- A walk depends on the steps from the points that it meets only. -/
theorem congr {other : α → Answer (Option α)} (hl : Walk next x l)
    (agree : ∀ a ∈ l, other a = next a) : Walk other x l := by
  induction hl with
  | stop ends => exact .stop ((agree _ List.mem_cons_self).trans ends)
  | step goes _ ih =>
    exact .step ((agree _ List.mem_cons_self).trans goes)
      (ih fun a member => agree a (List.mem_cons_of_mem _ member))

/-- Where one walk stops, another may be continued. -/
theorem append {z : α} (hl : Walk next x l) (last : l.getLast? = some z)
    (other : α → Answer (Option α)) (agree : ∀ a ∈ l, a ≠ z → other a = next a)
    (goes : other z = .ok (some y)) (hm : Walk other y m) : Walk other x (l ++ m) := by
  induction hl with
  | stop _ =>
    have same := Option.some.inj last
    subst same
    exact .step goes hm
  | @step x w l step hl ih =>
    obtain ⟨rest, shape⟩ := hl.eq_cons
    have last' : l.getLast? = some z := by
      rw [shape] at last ⊢
      simpa using last
    have apart : x ≠ z := by
      intro same
      have again : x ∈ l := same ▸ List.mem_of_getLast? last'
      exact (List.nodup_cons.mp (Walk.step step hl).nodup).1 again
    refine .step ((agree x List.mem_cons_self apart).trans step) ?_
    exact ih last' fun a member => agree a (List.mem_cons_of_mem _ member)

/-- The last point of a walk has no next one. -/
theorem next_getLast (hl : Walk next x l) : ∃ z, l.getLast? = some z ∧ next z = .ok none := by
  induction hl with
  | stop ends => exact ⟨_, rfl, ends⟩
  | @step x w l _ hl ih =>
    obtain ⟨z, last, ends⟩ := ih
    obtain ⟨rest, shape⟩ := hl.eq_cons
    refine ⟨z, ?_, ends⟩
    rw [shape] at last ⊢
    simpa using last

end Walk

end Scoping
