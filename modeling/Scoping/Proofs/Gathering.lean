import Mathlib.Data.List.Flatten
import Mathlib.Logic.Relation
import Scoping.Proofs.Walk

/-!
# Gathering

A walk inwards gathers what it finds at a place, and then what it gathers from each place
directly inside, one after the other. When from every place inside another one way leads
outwards, and no way comes back, nothing is gathered twice.
-/

namespace Scoping

variable {N α β : Type}

/-- One place is among those directly inside another. -/
def Inside (direct : N → Answer (List N)) (p q : N) : Prop :=
  ∃ inside, direct p = .ok inside ∧ q ∈ inside

/-- The list holds what a place has of its own, followed by what is gathered from each of the
places directly inside. -/
inductive Gathered (own : N → Answer (List α)) (direct : N → Answer (List N)) :
    N → List α → Prop
  | node {s : N} {here : List α} {inside : List N} {f : N → List α} :
      own s = .ok here → direct s = .ok inside →
      (∀ q ∈ inside, Gathered own direct q (f q)) →
      Gathered own direct s (here ++ inside.flatMap f)

/-! ### Ways outwards -/

namespace Walk

variable {next : N → Answer (Option N)} {q s : N} {path : List N}

/-- A walk meets just what its steps lead to. -/
theorem mem_iff (walk : Walk next q path) :
    s ∈ path ↔ Relation.ReflTransGen (fun p q => next q = .ok (some p)) s q := by
  constructor
  · intro member
    induction walk with
    | stop _ =>
      rw [List.mem_singleton.mp member]
    | step goes _ ih =>
      rcases List.mem_cons.mp member with rfl | later
      · exact .refl
      · exact (ih later).tail goes
  · intro leads
    induction leads generalizing path with
    | refl => exact walk.mem_start
    | tail _ goes ih =>
      obtain ⟨rest, rfl, further⟩ := walk.further goes
      exact List.mem_cons_of_mem _ (ih further)

/-- No steps lead from a point back to itself. -/
theorem not_back (walk : Walk next q path) :
    ¬ Relation.TransGen (fun p q => next q = .ok (some p)) q q := by
  intro round
  obtain ⟨p, leads, goes⟩ := Relation.TransGen.tail'_iff.mp round
  obtain ⟨rest, rfl, further⟩ := walk.further goes
  exact (List.nodup_cons.mp walk.nodup).1 (further.mem_iff.mpr leads)

end Walk

/-! ### What is gathered -/

namespace Gathered

variable {own own' : N → Answer (List α)} {direct direct' : N → Answer (List N)} {s : N}
  {l l' : List α} {a : α}

/-- Every answer of a walk inwards is gathered, however deep the walk may go. -/
theorem of_answer {walk : Nat → N → Answer (List α)} (stops : ∀ s l, walk 0 s ≠ .ok l)
    (goes : ∀ depth s, walk (depth + 1) s = (do
      let here ← own s
      return here ++ (← (← direct s).mapM (walk depth)).flatten)) {depth : Nat}
    (answer : walk depth s = .ok l) : Gathered own direct s l := by
  induction depth generalizing s l with
  | zero => exact absurd answer (stops s l)
  | succ depth ih =>
    rw [goes] at answer
    obtain ⟨here, found, answer⟩ := Answer.bind_eq_ok_iff.mp answer
    obtain ⟨inside, listed, answer⟩ := Answer.bind_eq_ok_iff.mp answer
    obtain ⟨lists, deeper, answer⟩ := Answer.bind_eq_ok_iff.mp answer
    have answered : ∀ q ∈ inside, walk depth q = .ok ((walk depth q).toOption.getD []) := by
      intro q member
      obtain ⟨r, value⟩ := Answer.exists_mapM_iff.mp ⟨lists, deeper⟩ q member
      rw [value]
      rfl
    cases (Answer.mapM_eq_ok answered).symm.trans deeper
    cases answer
    exact .node found listed fun q member => ih (answered q member)

/-- What is gathered is what the places have that can be come to. -/
theorem mem_iff (gathered : Gathered own direct s l) :
    a ∈ l ↔ ∃ r here, Relation.ReflTransGen (Inside direct) s r ∧ own r = .ok here ∧ a ∈ here := by
  induction gathered with
  | @node s here inside f found listed _ ih =>
    rw [List.mem_append, List.mem_flatMap]
    constructor
    · rintro (member | ⟨q, member, deeper⟩)
      · exact ⟨s, here, .refl, found, member⟩
      · obtain ⟨r, there, leads, found', member'⟩ := (ih q member).mp deeper
        exact ⟨r, there, .head ⟨inside, listed, member⟩ leads, found', member'⟩
    · rintro ⟨r, there, leads, found', member⟩
      rcases leads.cases_head with rfl | ⟨q, ⟨inside', listed', first⟩, rest⟩
      · cases found.symm.trans found'
        exact .inl member
      · cases listed.symm.trans listed'
        exact .inr ⟨q, first, (ih q first).mpr ⟨r, there, rest, found', member⟩⟩

/-- When the places themselves are gathered, they are those to which one comes by at least one
step. -/
theorem mem_iff_transGen {l : List N} {q : N} (gathered : Gathered direct direct s l) :
    q ∈ l ↔ Relation.TransGen (Inside direct) s q := by
  rw [gathered.mem_iff, Relation.TransGen.tail'_iff]
  simp only [Inside, exists_and_left]

/-- Of less there is less to gather. -/
theorem sublist (gathered : Gathered own direct s l) (more : Gathered own' direct' s l')
    (less : ∀ r here here', own r = .ok here → own' r = .ok here' → here.Sublist here')
    (fewer : ∀ r inside inside', direct r = .ok inside → direct' r = .ok inside' →
      inside.Sublist inside') : l.Sublist l' := by
  induction gathered generalizing l' with
  | @node s here inside f found listed _ ih =>
    cases more with
    | @node _ here' inside' f' found' listed' below' =>
      have within := fewer s inside inside' listed listed'
      refine (less s here here' found found').append ?_
      refine (List.Sublist.flatMap_right inside fun q member => ?_).trans (within.flatMap f')
      exact ih q member (below' q (within.mem member))

theorem unique (gathered : Gathered own direct s l) (again : Gathered own direct s l') :
    l = l' := by
  have same : ∀ {γ : Type} {list : N → Answer (List γ)} (r : N) (first second : List γ),
      list r = .ok first → list r = .ok second → first.Sublist second := by
    intro γ list r first second known known'
    cases known.symm.trans known'
    exact .refl _
  exact (gathered.sublist again same same).antisymm (again.sublist gathered same same)

/-- From what is gathered one may take something of each element. -/
theorem filterMap {own' : N → Answer (List β)} {g : α → Option β}
    (gathered : Gathered own direct s l)
    (taken : ∀ r here, own r = .ok here → own' r = .ok (here.filterMap g)) :
    Gathered own' direct s (l.filterMap g) := by
  induction gathered with
  | @node s here inside f found listed _ ih =>
    rw [List.filterMap_append, List.filterMap_flatMap]
    exact .node (taken s here found) listed ih

/-- When the places themselves are gathered, each comes after the one that it is directly
inside. -/
theorem after {l : List N} {q : N} (gathered : Gathered direct direct s l) (member : q ∈ l) :
    ∃ o, Inside direct o q ∧ (o = s ∨ [o, q].Sublist l) := by
  induction gathered with
  | @node s here inside f found listed _ ih =>
    cases found.symm.trans listed
    rcases List.mem_append.mp member with direct | deeper
    · exact ⟨s, ⟨here, listed, direct⟩, .inl rfl⟩
    · obtain ⟨p, first, deeper⟩ := List.mem_flatMap.mp deeper
      obtain ⟨o, inside, rfl | order⟩ := ih p first deeper
      · have last : q ∈ here.flatMap f := List.mem_flatMap.mpr ⟨o, first, deeper⟩
        exact ⟨o, inside, .inr <| (List.singleton_sublist.mpr first).append
          (List.singleton_sublist.mpr last)⟩
      · refine ⟨o, inside, .inr (order.trans ?_)⟩
        exact (List.sublist_flatten_of_mem (List.mem_map_of_mem first)).trans
          (List.sublist_append_right here _)

end Gathered

/-! ### Nothing twice -/

/-- What the places have is at home in one place, and from each place inside another one way
leads outwards, which ends. -/
structure Treelike (own : N → Answer (List α)) (direct : N → Answer (List N))
    (home : α → Answer (Option N)) (next : N → Answer (Option N)) : Prop where
  once : ∀ {s here}, own s = .ok here → here.Nodup
  apart : ∀ {s inside}, direct s = .ok inside → inside.Nodup
  home : ∀ {s here a}, own s = .ok here → a ∈ here → home a = .ok (some s)
  outward : ∀ {s q}, Inside direct s q → next q = .ok (some s)
  ends : ∀ {s q}, Inside direct s q → ∃ path, Walk next q path

namespace Treelike

variable {own : N → Answer (List α)} {direct : N → Answer (List N)}
  {home : α → Answer (Option N)} {next : N → Answer (Option N)} {s p q r : N} {l : List α}

theorem not_back (tree : Treelike own direct home next) :
    ¬ Relation.TransGen (Inside direct) s s := by
  intro round
  obtain ⟨p, _, last⟩ := Relation.TransGen.tail'_iff.mp round
  obtain ⟨path, walk⟩ := tree.ends last
  exact walk.not_back (Relation.TransGen.mono (fun _ _ => tree.outward) _ _ round)

/-- To another place one comes by at least one step. -/
theorem transGen_iff (tree : Treelike own direct home next) :
    Relation.TransGen (Inside direct) s q ↔
      q ≠ s ∧ Relation.ReflTransGen (Inside direct) s q := by
  constructor
  · intro leads
    refine ⟨?_, leads.to_reflTransGen⟩
    rintro rfl
    exact tree.not_back leads
  · rintro ⟨other, leads⟩
    rcases Relation.reflTransGen_iff_eq_or_transGen.mp leads with same | leads
    · exact absurd same other
    · exact leads

/-- Of two places from which one comes to a third, one is come to from the other. -/
theorem comparable (tree : Treelike own direct home next)
    (first : Relation.ReflTransGen (Inside direct) p r)
    (second : Relation.ReflTransGen (Inside direct) q r) :
    Relation.ReflTransGen (Inside direct) p q ∨ Relation.ReflTransGen (Inside direct) q p := by
  have one : Relator.RightUnique (Function.swap (Inside direct)) := by
    intro x y z there there'
    exact Option.some.inj (Except.ok.inj ((tree.outward there).symm.trans (tree.outward there')))
  rw [← Relation.reflTransGen_swap] at first second
  refine (Relation.ReflTransGen.total_of_right_unique one second first).imp ?_ ?_
  · exact Relation.reflTransGen_swap.mp
  · exact Relation.reflTransGen_swap.mp

/-- Two places directly inside one lead to nothing in common. -/
theorem disjoint (tree : Treelike own direct home next) (here : Inside direct s p)
    (there : Inside direct s q) (distinct : p ≠ q)
    (first : Relation.ReflTransGen (Inside direct) p r)
    (second : Relation.ReflTransGen (Inside direct) q r) : False := by
  have apart : ∀ {p q}, Inside direct s p → Inside direct s q → p ≠ q →
      ¬ Relation.ReflTransGen (Inside direct) p q := by
    intro p q here there distinct leads
    rcases leads.cases_tail with same | ⟨o, leads, last⟩
    · exact distinct same.symm
    · -- the last step towards `q` is made from `s`
      cases (tree.outward last).symm.trans (tree.outward there)
      exact tree.not_back (.head' here leads)
  rcases tree.comparable first second with leads | leads
  · exact apart here there distinct leads
  · exact apart there here distinct.symm leads

theorem nodup (tree : Treelike own direct home next) (gathered : Gathered own direct s l) :
    l.Nodup := by
  -- where an element is found is told by its home
  have found_at : ∀ {r r' here here' a}, own r = .ok here → a ∈ here → own r' = .ok here' →
      a ∈ here' → r = r' := by
    intro r r' here here' a found member found' member'
    exact Option.some.inj (Except.ok.inj
      ((tree.home found member).symm.trans (tree.home found' member')))
  induction gathered with
  | @node s here inside f found listed below ih =>
    refine List.nodup_append'.mpr ⟨tree.once found, List.nodup_flatMap.mpr ⟨ih, ?_⟩, ?_⟩
    · refine (tree.apart listed).imp_of_mem fun {p q} first second distinct a inP inQ => ?_
      obtain ⟨r, there, leads, found, member⟩ := (below p first).mem_iff.mp inP
      obtain ⟨r', there', leads', found', member'⟩ := (below q second).mem_iff.mp inQ
      cases found_at found member found' member'
      exact tree.disjoint ⟨inside, listed, first⟩ ⟨inside, listed, second⟩ distinct leads leads'
    · intro a member deeper
      obtain ⟨q, first, deeper⟩ := List.mem_flatMap.mp deeper
      obtain ⟨r, there, leads, found', member'⟩ := (below q first).mem_iff.mp deeper
      cases found_at found member found' member'
      exact tree.not_back (.head' ⟨inside, listed, first⟩ leads)

end Treelike

/-! ### Places in order -/

/-- The places that can be come to, each followed by those inside of it. -/
def Preorder (direct : N → Answer (List N)) : N → List N → Prop :=
  Gathered (fun q => .ok [q]) direct

namespace Preorder

variable {own : N → Answer (List α)} {direct : N → Answer (List N)} {s q : N}
  {order : List N}

theorem exists_of_gathered {l : List α} (gathered : Gathered own direct s l) :
    ∃ order, Preorder direct s order := by
  induction gathered with
  | node _ listed _ ih =>
    choose! f below using ih
    exact ⟨_, .node rfl listed below⟩

theorem mem_iff (preorder : Preorder direct s order) :
    q ∈ order ↔ Relation.ReflTransGen (Inside direct) s q := by
  rw [Gathered.mem_iff preorder]
  constructor
  · rintro ⟨r, here, leads, ⟨⟩, member⟩
    rwa [List.mem_singleton.mp member]
  · exact fun leads => ⟨q, [q], leads, rfl, List.mem_singleton_self q⟩

/-- A place comes after the one that it is directly inside. -/
theorem after (preorder : Preorder direct s order) (member : q ∈ order) (other : q ≠ s) :
    ∃ o, Inside direct o q ∧ [o, q].Sublist order := by
  unfold Preorder at preorder
  induction preorder with
  | @node s here inside f found listed _ ih =>
    cases found
    rcases List.mem_append.mp member with first | deeper
    · exact absurd (List.mem_singleton.mp first) other
    · obtain ⟨p, first, below⟩ := List.mem_flatMap.mp deeper
      by_cases here : q = p
      · subst here
        exact ⟨s, ⟨inside, listed, first⟩,
          (List.Sublist.refl [s]).append (List.singleton_sublist.mpr deeper)⟩
      · obtain ⟨o, around, order⟩ := ih p first below here
        refine ⟨o, around, order.trans ?_⟩
        exact (List.sublist_flatten_of_mem (List.mem_map_of_mem first)).trans
          (List.sublist_append_right [s] _)

theorem nodup {home : α → Answer (Option N)} {next : N → Answer (Option N)}
    (tree : Treelike own direct home next) (preorder : Preorder direct s order) :
    order.Nodup := by
  have single : Treelike (fun q => .ok [q]) direct (fun q => .ok (some q)) next := by
    refine ⟨?_, tree.apart, ?_, tree.outward, tree.ends⟩
    · rintro s here ⟨⟩
      exact List.nodup_singleton s
    · rintro s here q ⟨⟩ member
      rw [List.mem_singleton.mp member]
  exact single.nodup preorder

end Preorder

end Scoping
