import Mathlib.Data.Finset.Card
import Mathlib.Data.List.Induction
import Mathlib.Data.List.Infix
import Scoping.Scope.Stack

/-!
# Bracket discipline

Entering a scope opens a bracket and leaving one closes it. A closing bracket answers the
opening one behind which everything is balanced, and that is what the stack follows: whoever
leaves is told the scope that was entered at the answering bracket. At the bottom there is
nothing to leave, so closing brackets that answer none change nothing.
-/

namespace Scoping

/-- What a reader does: enter a scope, or leave the innermost one. -/
inductive Move
  | enter (s : ScopeId)
  | leave
deriving DecidableEq

namespace Move

variable {moves first last outer inner : List Move} {s r : ScopeId} {i j : Nat}

/-! ### Balance -/

/-- Whether a scope is entered. -/
def isEnter : Move → Bool
  | enter _ => true
  | leave => false

/-- How often a scope is entered. -/
def entries (moves : List Move) : Nat := moves.countP isEnter

/-- How often a scope is left. -/
def exits (moves : List Move) : Nat := moves.count leave

@[simp]
theorem entries_append : entries (first ++ last) = entries first + entries last :=
  List.countP_append

@[simp]
theorem exits_append : exits (first ++ last) = exits first + exits last := List.count_append

@[simp]
theorem entries_nil : entries [] = 0 := rfl

@[simp]
theorem exits_nil : exits [] = 0 := rfl

@[simp]
theorem entries_enter : entries (enter s :: moves) = entries moves + 1 :=
  List.countP_cons_of_pos rfl

@[simp]
theorem exits_enter : exits (enter s :: moves) = exits moves :=
  List.count_cons_of_ne (Move.noConfusion : enter s ≠ leave)

@[simp]
theorem entries_leave : entries (leave :: moves) = entries moves :=
  List.countP_cons_of_neg Bool.false_ne_true

@[simp]
theorem exits_leave : exits (leave :: moves) = exits moves + 1 := List.count_cons_self

theorem entries_concat_leave : entries (moves ++ [leave]) = entries moves := by simp

theorem exits_concat_leave : exits (moves ++ [leave]) = exits moves + 1 := by simp

/-- At no time had more scopes been left than entered. -/
def Covered (moves : List Move) : Prop := ∀ first, first <+: moves → exits first ≤ entries first

/-- From no time on were more scopes entered than left. -/
def Closed (moves : List Move) : Prop := ∀ last, last <:+ moves → entries last ≤ exits last

/-- Every scope that was entered is left, and no other one. -/
structure Balanced (moves : List Move) : Prop where
  covered : Covered moves
  even : entries moves = exits moves

instance (moves : List Move) : Decidable (Covered moves) :=
  decidable_of_iff (∀ first ∈ moves.inits, exits first ≤ entries first)
    (by simp only [Covered, List.mem_inits])

instance (moves : List Move) : Decidable (Balanced moves) :=
  decidable_of_iff (Covered moves ∧ entries moves = exits moves)
    ⟨fun ⟨covered, even⟩ => ⟨covered, even⟩, fun ⟨covered, even⟩ => ⟨covered, even⟩⟩

theorem Covered.of_prefix (covered : Covered moves) (start : first <+: moves) : Covered first :=
  fun _ before => covered _ (before.trans start)

theorem Covered.append (here : Covered first) (there : Covered last) :
    Covered (first ++ last) := by
  rintro start ⟨rest, same⟩
  rcases List.append_eq_append_iff.mp same with ⟨between, rfl, -⟩ | ⟨beyond, rfl, rfl⟩
  · exact here _ (List.prefix_append ..)
  · have all := here _ (List.prefix_refl _)
    have more := there _ (List.prefix_append ..)
    simp only [entries_append, exits_append]
    omega

theorem Covered.enter (covered : Covered inner) (s : ScopeId) : Covered (enter s :: inner) := by
  intro first start
  rcases List.prefix_cons_iff.mp start with rfl | ⟨rest, rfl, before⟩
  · exact Nat.le_refl _
  · have := covered rest before
    simp only [entries_enter, exits_enter]
    omega

theorem covered_concat_iff : Covered (moves ++ [leave]) ↔
    Covered moves ∧ exits moves < entries moves := by
  constructor
  · intro covered
    have all := covered _ (List.prefix_refl _)
    rw [entries_concat_leave, exits_concat_leave] at all
    exact ⟨covered.of_prefix (List.prefix_append ..), all⟩
  · rintro ⟨covered, left⟩ first start
    rcases List.prefix_concat_iff.mp start with rfl | before
    · rw [entries_concat_leave, exits_concat_leave]
      exact left
    · exact covered _ before

/-- Where nothing remains to be left, balance is seen from the end. -/
theorem Closed.balanced (closed : Closed moves) (left : exits moves ≤ entries moves) :
    Balanced moves := by
  refine ⟨?_, Nat.le_antisymm (closed _ (List.suffix_refl _)) left⟩
  rintro first ⟨last, rfl⟩
  have rest := closed last (List.suffix_append ..)
  simp only [entries_append, exits_append] at left
  omega

/-- Either all scopes that were entered are left again, or there is one behind whose entry
everything is balanced. -/
theorem closed_or_open (moves : List Move) : Closed moves ∨
    ∃ outer s inner, moves = outer ++ Move.enter s :: inner ∧ Balanced inner := by
  induction moves with
  | nil =>
    refine .inl fun last rest => ?_
    rw [List.suffix_nil.mp rest]
    exact Nat.le_refl _
  | cons m moves ih =>
    rcases ih with closed | ⟨outer, s, inner, rfl, balanced⟩
    · have further : entries (m :: moves) ≤ exits (m :: moves) → Closed (m :: moves) := by
        intro left last rest
        rcases List.suffix_cons_iff.mp rest with rfl | behind
        · exact left
        · exact closed _ behind
      have all := closed _ (List.suffix_refl _)
      cases m with
      | leave =>
        refine .inl (further ?_)
        simp only [entries_leave, exits_leave]
        omega
      | enter s =>
        by_cases left : exits moves ≤ entries moves
        · exact .inr ⟨[], s, moves, rfl, closed.balanced left⟩
        · refine .inl (further ?_)
          simp only [entries_enter, exits_enter]
          omega
    · exact .inr ⟨m :: outer, s, inner, rfl, balanced⟩

/-- Either no scope is left that was not entered, or there is a first such time, before which
everything is balanced. -/
theorem covered_or_closing (moves : List Move) : Covered moves ∨
    ∃ inner rest, moves = inner ++ leave :: rest ∧ Balanced inner := by
  induction moves using List.reverseRecOn with
  | nil =>
    refine .inl fun first start => ?_
    rw [List.prefix_nil.mp start]
    exact Nat.le_refl _
  | append_singleton moves m ih =>
    rcases ih with covered | ⟨inner, rest, rfl, balanced⟩
    · cases m with
      | enter s =>
        refine .inl (covered.append (Covered.enter ?_ s))
        exact fun first start => (List.prefix_nil.mp start).symm ▸ Nat.le_refl _
      | leave =>
        by_cases left : exits moves < entries moves
        · exact .inl (covered_concat_iff.mpr ⟨covered, left⟩)
        · have all := covered _ (List.prefix_refl _)
          exact .inr ⟨moves, [], rfl, covered, Nat.le_antisymm (Nat.not_lt.mp left) all⟩
    · exact .inr ⟨inner, rest ++ [m], by simp, balanced⟩

theorem Balanced.closed (balanced : Balanced moves) : Closed moves := by
  rintro last ⟨first, rfl⟩
  have start := balanced.covered first (List.prefix_append ..)
  have even := balanced.even
  simp only [entries_append, exits_append] at even
  omega

theorem not_closed_concat_enter : ¬ Closed (moves ++ [enter s]) := fun closed =>
  Nat.not_succ_le_zero 0 (closed [enter s] (List.suffix_append ..))

/-- A pair of brackets with balanced moves between them leaves nothing that was entered before. -/
theorem Closed.of_pair (closed : Closed (outer ++ enter s :: inner ++ [leave]))
    (balanced : Balanced inner) : Closed outer := by
  rintro last ⟨first, rfl⟩
  have behind := closed (last ++ enter s :: inner ++ [leave]) ⟨first, by simp⟩
  rw [entries_concat_leave, exits_concat_leave, entries_append, exits_append, entries_enter,
    exits_enter, balanced.even] at behind
  omega

/-! ### Brackets that answer each other -/

/-- At place `j` the scope `s` is left that was entered at place `i`: what was done in between
is balanced. -/
def Matches (moves : List Move) (i : Nat) (s : ScopeId) (j : Nat) : Prop :=
  ∃ outer inner rest, moves = (outer ++ enter s :: inner) ++ leave :: rest ∧ Balanced inner ∧
    i = outer.length ∧ j = (outer ++ enter s :: inner).length

/-- At place `i` a scope was entered that has not been left. -/
def Unmatched (moves : List Move) (i : Nat) : Prop :=
  (∃ s, moves[i]? = some (enter s)) ∧ ¬ ∃ s j, Matches moves i s j

theorem Unmatched.lt (still : Unmatched moves i) : i < moves.length :=
  let ⟨⟨_, entered⟩, _⟩ := still
  (List.getElem?_eq_some_iff.mp entered).1

/-- There is one entry at most behind which everything is balanced. -/
theorem open_unique {outer' inner' : List Move}
    (same : outer ++ enter s :: inner = outer' ++ enter r :: inner') (balanced : Balanced inner)
    (balanced' : Balanced inner') : outer = outer' ∧ s = r ∧ inner = inner' := by
  -- one entry behind the other would have to be left before the balanced rest begins
  have apart : ∀ {between inner inner' r}, inner = between ++ enter r :: inner' →
      Balanced inner → Balanced inner' → False := by
    rintro between inner inner' r rfl balanced balanced'
    have start := balanced.covered between (List.prefix_append ..)
    have even := balanced.even
    have even' := balanced'.even
    simp only [entries_append, exits_append, entries_enter, exits_enter] at even
    omega
  rcases List.append_eq_append_iff.mp same with ⟨between, rfl, behind⟩ | ⟨between, rfl, behind⟩
  · rcases List.cons_eq_append_iff.mp behind with ⟨rfl, tail⟩ | ⟨rest, rfl, tail⟩
    · cases tail
      exact ⟨(List.append_nil _).symm, rfl, rfl⟩
    · exact (apart tail balanced balanced').elim
  · rcases List.cons_eq_append_iff.mp behind with ⟨rfl, tail⟩ | ⟨rest, rfl, tail⟩
    · cases tail
      exact ⟨List.append_nil _, rfl, rfl⟩
    · exact (apart tail balanced' balanced).elim

theorem Matches.unique {i' : Nat} (here : Matches moves i s j) (there : Matches moves i' r j) :
    i = i' ∧ s = r := by
  obtain ⟨outer, inner, rest, rfl, balanced, rfl, rfl⟩ := here
  obtain ⟨outer', inner', rest', same, balanced', rfl, place⟩ := there
  obtain ⟨rfl, rfl, rfl⟩ := open_unique (List.append_inj same place).1 balanced balanced'
  exact ⟨rfl, rfl⟩

theorem take_cons_drop {m : Move} (there : moves[i]? = some m) :
    moves.take i ++ m :: moves.drop (i + 1) = moves ∧ (moves.take i).length = i := by
  obtain ⟨short, rfl⟩ := List.getElem?_eq_some_iff.mp there
  rw [List.getElem_cons_drop]
  exact ⟨List.take_append_drop .., List.length_take_of_le (Nat.le_of_lt short)⟩

/-- Leaving answers an entry, unless everything that was entered before is left already. -/
theorem closed_or_matches (left : moves[j]? = some leave) :
    Closed (moves.take j) ∨ ∃ i s, Matches moves i s j := by
  obtain ⟨split, place⟩ := take_cons_drop left
  refine (closed_or_open (moves.take j)).imp_right ?_
  rintro ⟨outer, s, inner, before, balanced⟩
  rw [before] at split place
  exact ⟨outer.length, s, outer, inner, moves.drop (j + 1), split.symm, balanced, rfl, place.symm⟩

/-- Where nothing is left that was not entered, leaving always answers an entry. -/
theorem Covered.exists_matches (covered : Covered moves) (left : moves[j]? = some leave) :
    ∃ i s, Matches moves i s j := by
  refine (closed_or_matches left).resolve_left fun closed => ?_
  obtain ⟨split, -⟩ := take_cons_drop left
  have start : moves.take j ++ [leave] <+: moves := ⟨moves.drop (j + 1), by simpa using split⟩
  have entered := (covered_concat_iff.mp (covered.of_prefix start)).2
  exact Nat.not_lt.mpr (closed _ (List.suffix_refl _)) entered

theorem Closed.not_matches (closed : Closed (moves.take j)) : ¬ Matches moves i s j := by
  rintro ⟨outer, inner, rest, rfl, balanced, -, rfl⟩
  rw [List.take_left] at closed
  have behind := closed _ (List.suffix_append ..)
  have even := balanced.even
  simp only [entries_enter, exits_enter] at behind
  omega

theorem unmatched_iff : Unmatched moves i ↔
    (∃ s, moves[i]? = some (enter s)) ∧ Covered (moves.drop (i + 1)) := by
  refine and_congr_right fun ⟨s, entered⟩ => ?_
  obtain ⟨split, place⟩ := take_cons_drop entered
  constructor
  · intro never
    refine (covered_or_closing _).resolve_right ?_
    rintro ⟨inner, rest, behind, balanced⟩
    rw [behind] at split
    refine never ⟨s, _, moves.take i, inner, rest, ?_, balanced, place.symm, rfl⟩
    rw [List.append_assoc, List.cons_append]
    exact split.symm
  · rintro covered ⟨r, j, outer, inner, rest, rfl, balanced, rfl, -⟩
    have behind : ((outer ++ enter r :: inner) ++ leave :: rest).drop (outer.length + 1) =
        (inner ++ [leave]) ++ rest := by simp
    rw [behind] at covered
    have left := (covered_concat_iff.mp (covered.of_prefix (List.prefix_append ..))).2
    exact Nat.ne_of_lt left balanced.even.symm

theorem any_isEnter_iff : moves[i]?.any isEnter = true ↔ ∃ s, moves[i]? = some (enter s) := by
  rcases moves[i]? with _ | (s | _) <;> simp [isEnter]

instance (moves : List Move) (i : Nat) : Decidable (Unmatched moves i) :=
  decidable_of_iff (moves[i]?.any isEnter = true ∧ Covered (moves.drop (i + 1)))
    ((and_congr_left' any_isEnter_iff).trans unmatched_iff.symm)

theorem Closed.not_unmatched (closed : Closed moves) : ¬ Unmatched moves i := by
  rw [unmatched_iff]
  rintro ⟨⟨s, entered⟩, covered⟩
  obtain ⟨split, -⟩ := take_cons_drop entered
  have behind := closed (enter s :: moves.drop (i + 1)) ⟨_, split⟩
  have all := covered _ (List.prefix_refl _)
  simp only [entries_enter, exits_enter] at behind
  omega

/-- What follows in balance leaves none of the scopes that were entered before. -/
theorem unmatched_open_iff (balanced : Balanced inner) :
    Unmatched (outer ++ enter s :: inner) i ↔ i = outer.length ∨ Unmatched outer i := by
  have follows : Covered (enter s :: inner) := balanced.covered.enter s
  rcases Nat.lt_trichotomy i outer.length with before | rfl | behind
  · rw [unmatched_iff, unmatched_iff, List.getElem?_append_left before,
      List.drop_append_of_le_length before, or_iff_right (Nat.ne_of_lt before)]
    refine and_congr_right' ⟨fun covered => ?_, fun covered => covered.append follows⟩
    exact covered.of_prefix (List.prefix_append ..)
  · rw [unmatched_iff]
    simp [balanced.covered]
  · obtain ⟨k, rfl⟩ := Nat.exists_eq_add_of_lt behind
    have inside : Unmatched (outer ++ enter s :: inner) (outer.length + k + 1) ↔
        Unmatched inner k := by
      rw [unmatched_iff, unmatched_iff, Nat.add_assoc, Nat.add_assoc, List.drop_length_add_append,
        List.getElem?_append_right (Nat.le_add_right ..), Nat.add_sub_cancel_left]
      rfl
    rw [inside]
    refine iff_of_false balanced.closed.not_unmatched (not_or.mpr ⟨Nat.ne_of_gt behind, ?_⟩)
    exact fun still => Nat.lt_asymm behind still.lt

/-- The places at which the scopes were entered that have not been left. -/
def unmatched (moves : List Move) : Finset Nat :=
  (Finset.range moves.length).filter (Unmatched moves)

theorem mem_unmatched : i ∈ unmatched moves ↔ Unmatched moves i := by
  rw [unmatched, Finset.mem_filter, Finset.mem_range, and_iff_right_of_imp Unmatched.lt]

theorem Closed.unmatched_eq (closed : Closed moves) : unmatched moves = ∅ :=
  Finset.eq_empty_of_forall_notMem fun _ there => closed.not_unmatched (mem_unmatched.mp there)

theorem card_unmatched_open (balanced : Balanced inner) :
    (unmatched (outer ++ enter s :: inner)).card = (unmatched outer).card + 1 := by
  have outside : outer.length ∉ unmatched outer := fun there =>
    Nat.lt_irrefl _ (mem_unmatched.mp there).lt
  rw [← Finset.card_insert_of_notMem outside]
  congr 1
  ext i
  rw [Finset.mem_insert, mem_unmatched, mem_unmatched, unmatched_open_iff balanced]

end Move

end Scoping
