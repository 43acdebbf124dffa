import Mathlib.Data.List.Induction
import Mathlib.Data.List.Nodup

/-!
# Listings

A listing has at most one entry of each key. A further entry is listed in the place
of the one of its key, or else at the end, so that the places of the keys never move.
-/

namespace Scoping

variable {α β γ : Type} [DecidableEq β] {key : α → β} {x y z : α} {l m base own : List α}

/-- List an entry: in the place of the first one of its key, or else at the end. -/
def put (key : α → β) : List α → α → List α
  | [], x => [x]
  | y :: l, x => if key y = key x then x :: l else y :: put key l x

/-- List entries one after the other. -/
def overlay (key : α → β) (base own : List α) : List α := own.foldl (put key) base

theorem put_of_not_mem (fresh : key x ∉ l.map key) : put key l x = l ++ [x] := by
  induction l with
  | nil => rfl
  | cons y l ih =>
    rw [List.map_cons, List.mem_cons, not_or] at fresh
    rw [put, if_neg (Ne.symm fresh.1), ih fresh.2, List.cons_append]

theorem map_put_of_mem {g : α → γ} (distinct : (l.map key).Nodup) (listed : y ∈ l)
    (same : key y = key x) (equal : g y = g x) : (put key l x).map g = l.map g := by
  induction l with
  | nil => simp at listed
  | cons z l ih =>
    rw [List.map_cons, List.nodup_cons] at distinct
    by_cases here : key z = key x
    · rw [put, if_pos here, List.map_cons, List.map_cons]
      rcases List.mem_cons.mp listed with rfl | later
      · rw [equal]
      · exact absurd (here.trans same.symm ▸ List.mem_map_of_mem later) distinct.1
    · rw [put, if_neg here, List.map_cons, List.map_cons]
      rcases List.mem_cons.mp listed with rfl | later
      · exact absurd same here
      · rw [ih distinct.2 later]

theorem map_key_put : (put key l x).map key =
    if key x ∈ l.map key then l.map key else l.map key ++ [key x] := by
  induction l with
  | nil => simp [put]
  | cons y l ih =>
    by_cases here : key y = key x
    · simp [put, here]
    · have other : ¬ key x = key y := fun same => here same.symm
      rw [put, if_neg here, List.map_cons, ih, List.map_cons]
      by_cases later : key x ∈ l.map key
      · rw [if_pos later, if_pos (List.mem_cons_of_mem _ later)]
      · have fresh : key x ∉ key y :: l.map key := by
          rw [List.mem_cons, not_or]
          exact ⟨other, later⟩
        rw [if_neg later, if_neg fresh, List.cons_append]

theorem nodup_put (distinct : (l.map key).Nodup) : ((put key l x).map key).Nodup := by
  rw [map_key_put]
  split
  · exact distinct
  · rename_i fresh
    refine List.nodup_append.mpr ⟨distinct, List.nodup_singleton _, ?_⟩
    intro a listed b last same
    rw [List.mem_singleton.mp last] at same
    exact fresh (same ▸ listed)

theorem mem_put_iff (distinct : (l.map key).Nodup) :
    z ∈ put key l x ↔ z = x ∨ z ∈ l ∧ key z ≠ key x := by
  induction l with
  | nil => simp [put]
  | cons y l ih =>
    rw [List.map_cons, List.nodup_cons] at distinct
    by_cases here : key y = key x
    · have apart : z ∈ l → key z ≠ key x := by
        intro listed same
        exact distinct.1 (here.trans same.symm ▸ List.mem_map_of_mem listed)
      rw [put, if_pos here, List.mem_cons, List.mem_cons]
      constructor
      · rintro (rfl | listed)
        · exact .inl rfl
        · exact .inr ⟨.inr listed, apart listed⟩
      · rintro (rfl | ⟨rfl | listed, other⟩)
        · exact .inl rfl
        · exact absurd here other
        · exact .inr listed
    · rw [put, if_neg here, List.mem_cons, List.mem_cons, ih distinct.2]
      constructor
      · rintro (rfl | rfl | ⟨listed, other⟩)
        · exact .inr ⟨.inl rfl, here⟩
        · exact .inl rfl
        · exact .inr ⟨.inr listed, other⟩
      · rintro (rfl | ⟨rfl | listed, other⟩)
        · exact .inr (.inl rfl)
        · exact .inl rfl
        · exact .inr (.inr ⟨listed, other⟩)

theorem put_congr {other : α → β} (first : other x = key x) (agree : ∀ y ∈ l, other y = key y) :
    put other l x = put key l x := by
  induction l with
  | nil => rfl
  | cons y l ih =>
    rw [put, put, first, agree y List.mem_cons_self,
      ih fun z member => agree z (List.mem_cons_of_mem y member)]

theorem mem_of_mem_put (listed : z ∈ put key l x) : z = x ∨ z ∈ l := by
  induction l with
  | nil => exact .inl (List.mem_singleton.mp listed)
  | cons y l ih =>
    rw [put] at listed
    split at listed
    · rcases List.mem_cons.mp listed with rfl | listed
      · exact .inl rfl
      · exact .inr (List.mem_cons_of_mem y listed)
    · rcases List.mem_cons.mp listed with rfl | listed
      · exact .inr List.mem_cons_self
      · exact (ih listed).imp id (List.mem_cons_of_mem y)

/-! ### Several entries -/

@[simp]
theorem overlay_nil : overlay key base [] = base := rfl

theorem overlay_concat : overlay key base (own ++ [x]) = put key (overlay key base own) x := by
  rw [overlay, List.foldl_append]
  rfl

theorem nodup_overlay (distinct : (base.map key).Nodup) :
    ((overlay key base own).map key).Nodup := by
  induction own using List.reverseRecOn with
  | nil => exact distinct
  | append_singleton own x ih =>
    rw [overlay_concat]
    exact nodup_put ih

theorem mem_of_mem_overlay (listed : z ∈ overlay key base own) : z ∈ own ∨ z ∈ base := by
  induction own using List.reverseRecOn with
  | nil => exact .inr listed
  | append_singleton own x ih =>
    rw [overlay_concat] at listed
    rcases mem_of_mem_put listed with rfl | listed
    · exact .inl (by simp)
    · exact (ih listed).imp (List.mem_append_left _) id

/-- Entries of pairwise different keys are all listed, over the others of their keys. -/
theorem mem_overlay_iff (distinct : (base.map key).Nodup) (apart : (own.map key).Nodup) :
    z ∈ overlay key base own ↔ z ∈ own ∨ z ∈ base ∧ key z ∉ own.map key := by
  induction own using List.reverseRecOn with
  | nil => simp
  | append_singleton own x ih =>
    rw [List.map_append, List.nodup_append] at apart
    have fresh : key x ∉ own.map key := fun listed => apart.2.2 _ listed _ (by simp) rfl
    rw [overlay_concat, mem_put_iff (nodup_overlay distinct), ih apart.1, List.map_append,
      List.mem_append, List.mem_append, List.mem_singleton, List.map_singleton,
      List.mem_singleton, not_or]
    constructor
    · rintro (rfl | ⟨listed | ⟨listed, other⟩, last⟩)
      · exact .inl (.inr rfl)
      · exact .inl (.inl listed)
      · exact .inr ⟨listed, other, last⟩
    · rintro ((listed | rfl) | ⟨listed, other, last⟩)
      · have different : key z ≠ key x := fun same =>
          fresh (same ▸ List.mem_map_of_mem listed)
        exact .inr ⟨.inl listed, different⟩
      · exact .inl rfl
      · exact .inr ⟨.inr ⟨listed, other⟩, last⟩

/-- The keys listed before keep their places. -/
theorem keys_overlay (key : α → β) (base own : List α) :
    ∃ more, (overlay key base own).map key = base.map key ++ more := by
  induction own using List.reverseRecOn with
  | nil => exact ⟨[], by simp⟩
  | append_singleton own x ih =>
    obtain ⟨more, keys⟩ := ih
    rw [overlay_concat, map_key_put]
    split
    · exact ⟨more, keys⟩
    · exact ⟨more ++ [key x], by rw [keys, List.append_assoc]⟩

theorem overlay_congr {other : α → β} (first : ∀ y ∈ base, other y = key y)
    (agree : ∀ y ∈ own, other y = key y) : overlay other base own = overlay key base own := by
  induction own using List.reverseRecOn with
  | nil => rfl
  | append_singleton own x ih =>
    have same := ih fun y listed => agree y (List.mem_append_left _ listed)
    rw [overlay_concat, overlay_concat, same]
    refine put_congr (agree x (by simp)) fun y listed => ?_
    rcases mem_of_mem_overlay listed with listed | listed
    · exact agree y (List.mem_append_left _ listed)
    · exact first y listed

/-! ### Merges -/

/-- The own entry of the key of an entry, or else the entry itself. -/
def replaced (key : α → β) (own : List α) (x : α) : α :=
  (own.find? fun y => key y = key x).getD x

/-- Every entry of the base is replaced by the own one of its key, if there is one; the own
entries of other keys come after them. -/
def merge (key : α → β) (base own : List α) : List α :=
  base.map (replaced key own) ++ own.filter fun y => key y ∉ base.map key

theorem key_replaced (key : α → β) (own : List α) (x : α) :
    key (replaced key own x) = key x := by
  rw [replaced]
  cases found : own.find? fun y => key y = key x with
  | none => rfl
  | some y => simpa using List.find?_some found

theorem map_key_replaced (key : α → β) (base own : List α) :
    (base.map (replaced key own)).map key = base.map key := by
  rw [List.map_map]
  exact List.map_congr_left fun x _ => key_replaced key own x

theorem put_eq_map (distinct : (l.map key).Nodup) (listed : key x ∈ l.map key) :
    put key l x = l.map fun y => if key y = key x then x else y := by
  induction l with
  | nil => simp at listed
  | cons y l ih =>
    rw [List.map_cons, List.nodup_cons] at distinct
    rw [put, List.map_cons]
    by_cases here : key y = key x
    · have others : ∀ z ∈ l, (if key z = key x then x else z) = z := by
        intro z inside
        refine if_neg fun same => distinct.1 ?_
        exact here.trans same.symm ▸ List.mem_map_of_mem inside
      rw [if_pos here, if_pos here, List.map_congr_left others, List.map_id']
    · have later : key x ∈ l.map key := by
        rw [List.map_cons, List.mem_cons] at listed
        exact listed.resolve_left fun same => here same.symm
      rw [if_neg here, if_neg here, ih distinct.2 later]

theorem put_append (listed : key x ∈ l.map key) : put key (l ++ m) x = put key l x ++ m := by
  induction l with
  | nil => simp at listed
  | cons y l ih =>
    rw [List.cons_append, put, put]
    by_cases here : key y = key x
    · rw [if_pos here, if_pos here, List.cons_append]
    · rw [List.map_cons, List.mem_cons] at listed
      rw [if_neg here, if_neg here, ih (listed.resolve_left fun same => here same.symm),
        List.cons_append]

@[simp]
theorem replaced_nil (key : α → β) (x : α) : replaced key [] x = x := rfl

theorem replaced_concat (fresh : key x ∉ own.map key) (y : α) :
    replaced key (own ++ [x]) y = if key y = key x then x else replaced key own y := by
  rw [replaced, replaced, List.find?_append]
  by_cases same : key y = key x
  · have unseen : own.find? (fun z => key z = key y) = none := by
      rw [List.find?_eq_none]
      intro z inside equal
      exact fresh (List.mem_map.mpr ⟨z, inside, (of_decide_eq_true equal).trans same⟩)
    rw [unseen, if_pos same]
    simp [same]
  · simp [same, Ne.symm same]

/-- To list one entry more is to merge one entry more. -/
theorem put_merge (distinct : (base.map key).Nodup) (fresh : key x ∉ own.map key) :
    put key (merge key base own) x = merge key base (own ++ [x]) := by
  have keys := map_key_replaced key base own
  rw [merge, merge, List.filter_append]
  by_cases listed : key x ∈ base.map key
  · have replaces : base.map (replaced key (own ++ [x])) =
        (base.map (replaced key own)).map fun y => if key y = key x then x else y := by
      rw [List.map_map]
      refine List.map_congr_left fun y _ => ?_
      simp only [replaced_concat fresh, Function.comp_apply, key_replaced]
    have nothing : ([x].filter fun y => key y ∉ base.map key) = [] :=
      List.filter_cons_of_neg (by simpa using listed)
    rw [put_append (keys ▸ listed), put_eq_map (keys ▸ distinct) (keys ▸ listed), ← replaces,
      nothing, List.append_nil]
  · have kept : base.map (replaced key (own ++ [x])) = base.map (replaced key own) := by
      refine List.map_congr_left fun y inside => ?_
      have other : key y ≠ key x := by
        intro same
        exact listed (same ▸ List.mem_map_of_mem inside)
      rw [replaced_concat fresh, if_neg other]
    have unlisted : key x ∉ (base.map (replaced key own) ++
        own.filter fun y => key y ∉ base.map key).map key := by
      rw [List.map_append, keys, List.mem_append, not_or]
      exact ⟨listed, fun there => fresh (List.filter_sublist.map key |>.subset there)⟩
    have last : ([x].filter fun y => key y ∉ base.map key) = [x] :=
      List.filter_cons_of_pos (by simpa using listed)
    rw [put_of_not_mem unlisted, kept, last, List.append_assoc]

/-- Entries of pairwise different keys are listed as they are merged. -/
theorem overlay_eq_merge (distinct : (base.map key).Nodup) (apart : (own.map key).Nodup) :
    overlay key base own = merge key base own := by
  induction own using List.reverseRecOn with
  | nil =>
    rw [merge, List.filter_nil, List.append_nil, List.map_congr_left fun x _ => replaced_nil key x,
      List.map_id', overlay_nil]
  | append_singleton own x ih =>
    rw [List.map_append, List.nodup_append] at apart
    have fresh : key x ∉ own.map key := fun listed => apart.2.2 _ listed _ (by simp) rfl
    rw [overlay_concat, ih apart.1, put_merge distinct fresh]

/-- A merge depends on which entries have the same key only. -/
theorem merge_congr {other : α → γ} [DecidableEq γ]
    (agree : ∀ x ∈ base, ∀ y ∈ own, other y = other x ↔ key y = key x) :
    merge other base own = merge key base own := by
  have replaces : base.map (replaced other own) = base.map (replaced key own) := by
    refine List.map_congr_left fun x inside => ?_
    rw [replaced, replaced, ← List.head?_filter, ← List.head?_filter,
      List.filter_congr fun y member => decide_eq_decide.mpr (agree x inside y member)]
  have appended : (own.filter fun y => other y ∉ base.map other) =
      own.filter fun y => key y ∉ base.map key := by
    refine List.filter_congr fun y member => decide_eq_decide.mpr (not_congr ?_)
    simp only [List.mem_map]
    refine exists_congr fun x => and_congr_right fun inside => ?_
    rw [eq_comm, agree x inside y member, eq_comm]
  rw [merge, merge, replaces, appended]

end Scoping
