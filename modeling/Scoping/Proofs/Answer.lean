import Scoping.Fault

/-!
# Reading answers

An answer is a value or a fault, and a computation goes on only while it has
values. A computation that ends with a value therefore had one at every step.
-/

namespace Scoping

namespace Answer

variable {α β : Type}

@[simp]
theorem ok_bind (a : α) (f : α → Answer β) : (Except.ok a >>= f) = f a := rfl

@[simp]
theorem error_bind (e : Fault) (f : α → Answer β) :
    ((Except.error e : Answer α) >>= f) = .error e := rfl

@[simp]
theorem pure_eq_ok (a : α) : (pure a : Answer α) = .ok a := rfl

instance decidableEq [DecidableEq α] : DecidableEq (Answer α)
  | .ok a, .ok b => decidable_of_iff (a = b) (by simp)
  | .error e, .error f => decidable_of_iff (e = f) (by simp)
  | .ok _, .error _ => .isFalse (by simp)
  | .error _, .ok _ => .isFalse (by simp)

theorem toOption_eq_some_iff {x : Answer α} {a : α} : x.toOption = some a ↔ x = .ok a := by
  cases x <;> simp [Except.toOption]

theorem bind_eq_ok_iff {x : Answer α} {f : α → Answer β} {b : β} :
    (x >>= f) = .ok b ↔ ∃ a, x = .ok a ∧ f a = .ok b := by
  cases x with
  | error e => simp
  | ok a => simp

/-- Questions that all have values are answered one by one. -/
theorem mapM_eq_ok {l : List α} {f : α → Answer β} {g : α → β}
    (values : ∀ a ∈ l, f a = .ok (g a)) : l.mapM f = .ok (l.map g) := by
  induction l with
  | nil => rfl
  | cons a l ih =>
    rw [List.mapM_cons, values a List.mem_cons_self,
      ih fun b member => values b (List.mem_cons_of_mem a member)]
    rfl

/-- Questions that have the same values as others are answered as these were. -/
theorem mapM_eq_ok_of_imp {f g : α → Answer β} {l : List α} {r : List β}
    (values : l.mapM f = .ok r) (imp : ∀ a ∈ l, ∀ b, f a = .ok b → g a = .ok b) :
    l.mapM g = .ok r := by
  induction l generalizing r with
  | nil => exact values
  | cons a l ih =>
    rw [List.mapM_cons] at values
    obtain ⟨b, first, values⟩ := bind_eq_ok_iff.mp values
    obtain ⟨rest, later, values⟩ := bind_eq_ok_iff.mp values
    rw [List.mapM_cons, imp a List.mem_cons_self b first,
      ih later fun c member => imp c (List.mem_cons_of_mem a member)]
    exact values

/-- Questions that all have values of some kind are answered by a list of such values. -/
theorem exists_mapM_of_forall {P : β → Prop} {f : α → Answer β} {l : List α}
    (answered : ∀ a ∈ l, ∃ b, f a = .ok b ∧ P b) : ∃ r, l.mapM f = .ok r ∧ ∀ b ∈ r, P b := by
  induction l with
  | nil => exact ⟨[], rfl, by simp⟩
  | cons a l ih =>
    obtain ⟨b, first, holds⟩ := answered a List.mem_cons_self
    obtain ⟨rest, later, hold⟩ := ih fun c member => answered c (List.mem_cons_of_mem a member)
    refine ⟨b :: rest, by rw [List.mapM_cons, first, later]; rfl, fun c member => ?_⟩
    rcases List.mem_cons.mp member with rfl | member
    · exact holds
    · exact hold c member

theorem exists_mapM {f : α → Answer β} {l : List α} (answered : ∀ a ∈ l, ∃ b, f a = .ok b) :
    ∃ r, l.mapM f = .ok r := by
  have trivially : ∀ a ∈ l, ∃ b, f a = .ok b ∧ True := fun a member =>
    (answered a member).imp fun _ known => ⟨known, trivial⟩
  obtain ⟨r, known, _⟩ := exists_mapM_of_forall trivially
  exact ⟨r, known⟩

/-- A list of questions is answered just when each of them is. -/
theorem exists_mapM_iff {f : α → Answer β} {l : List α} :
    (∃ r, l.mapM f = .ok r) ↔ ∀ a ∈ l, ∃ b, f a = .ok b := by
  refine ⟨?_, exists_mapM⟩
  rintro ⟨r, known⟩
  induction l generalizing r with
  | nil => simp
  | cons a l ih =>
    rw [List.mapM_cons] at known
    obtain ⟨b, first, known⟩ := bind_eq_ok_iff.mp known
    obtain ⟨rest, later, _⟩ := bind_eq_ok_iff.mp known
    intro c member
    rcases List.mem_cons.mp member with rfl | member
    · exact ⟨b, first⟩
    · exact ih rest later c member

/-- The answer to each of the questions is among the answers. -/
theorem mem_of_mapM {f : α → Answer β} {l : List α} {r : List β} {a : α} {b : β}
    (values : l.mapM f = .ok r) (member : a ∈ l) (value : f a = .ok b) : b ∈ r := by
  induction l generalizing r with
  | nil => cases member
  | cons c l ih =>
    rw [List.mapM_cons] at values
    obtain ⟨d, first, values⟩ := bind_eq_ok_iff.mp values
    obtain ⟨rest, later, values⟩ := bind_eq_ok_iff.mp values
    cases values
    rcases List.mem_cons.mp member with rfl | member
    · cases value.symm.trans first
      exact List.mem_cons_self
    · exact List.mem_cons_of_mem d (ih later member)

theorem filterAuxM_eq_ok {f : α → Answer Bool} {p : α → Bool} {l : List α} (kept : List α)
    (values : ∀ a ∈ l, f a = .ok (p a)) :
    l.filterAuxM f kept = .ok ((l.filter p).reverse ++ kept) := by
  induction l generalizing kept with
  | nil => rfl
  | cons a l ih =>
    have rest := fun kept => ih kept fun b member =>
      values b (List.mem_cons_of_mem a member)
    rw [List.filterAuxM, values a List.mem_cons_self, ok_bind, rest]
    cases keep : p a with
    | true => simp [keep]
    | false => simp [keep]

theorem filterM_eq_ok {l : List α} {f : α → Answer Bool} {p : α → Bool}
    (values : ∀ a ∈ l, f a = .ok (p a)) : l.filterM f = .ok (l.filter p) := by
  rw [List.filterM, filterAuxM_eq_ok [] values]
  simp

/-- A list can be filtered when every test has an answer. -/
theorem exists_filterM {f : α → Answer Bool} {l : List α} (answered : ∀ a ∈ l, ∃ b, f a = .ok b) :
    ∃ r, l.filterM f = .ok r ∧ ∀ a ∈ r, a ∈ l := by
  have known : ∀ a ∈ l, f a = .ok ((f a).toOption.getD false) := by
    intro a member
    obtain ⟨b, value⟩ := answered a member
    rw [value]
    rfl
  exact ⟨_, filterM_eq_ok known, fun a member => (List.mem_filter.mp member).1⟩

/-- The first that passes a test is found when every test has an answer. -/
theorem exists_findM? {f : α → Answer Bool} {l : List α} (answered : ∀ a ∈ l, ∃ b, f a = .ok b) :
    ∃ r, l.findM? f = .ok r ∧ ∀ a, r = some a → a ∈ l := by
  induction l with
  | nil => exact ⟨none, rfl, by simp⟩
  | cons a l ih =>
    obtain ⟨b, first⟩ := answered a List.mem_cons_self
    obtain ⟨r, later, found⟩ := ih fun c member => answered c (List.mem_cons_of_mem a member)
    rw [List.findM?, first, ok_bind]
    cases b with
    | true =>
      refine ⟨some a, rfl, ?_⟩
      rintro c ⟨⟩
      exact List.mem_cons_self
    | false => exact ⟨r, later, fun c same => List.mem_cons_of_mem a (found c same)⟩

theorem findSomeM?_eq_ok {l : List α} {f : α → Answer (Option β)} {g : α → Option β}
    (values : ∀ a ∈ l, f a = .ok (g a)) : l.findSomeM? f = .ok (l.findSome? g) := by
  induction l with
  | nil => rfl
  | cons a l ih =>
    have rest := ih fun b member => values b (List.mem_cons_of_mem a member)
    rw [List.findSomeM?_cons, values a List.mem_cons_self, List.findSome?_cons]
    cases found : g a with
    | some b => simp
    | none => simp [rest]

/-- A fold has a value when the values so far keep every step answerable. -/
theorem foldlM_eq_ok {P : β → Prop} {l : List α} {f : β → α → Answer β} {g : β → α → β} {b : β}
    (values : ∀ b a, P b → a ∈ l → f b a = .ok (g b a) ∧ P (g b a)) (start : P b) :
    l.foldlM f b = .ok (l.foldl g b) ∧ P (l.foldl g b) := by
  induction l generalizing b with
  | nil => exact ⟨rfl, start⟩
  | cons a l ih =>
    obtain ⟨first, stays⟩ := values b a start List.mem_cons_self
    rw [List.foldlM_cons, first, List.foldl_cons]
    exact ih (fun b c holds member => values b c holds (List.mem_cons_of_mem a member)) stays

end Answer

end Scoping
