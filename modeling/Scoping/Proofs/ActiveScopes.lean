import Scoping.Proofs.Brackets

/-!
# The stack obeys bracket discipline

A stack that starts with the bottom alone holds, above the bottom, the scopes that were entered
and not left. Balanced moves give back the stack they began with, whatever it was, and each
time a scope is left it is the one that was entered at the answering bracket.
-/

namespace Scoping

namespace ScopeStack

open Move

variable {st : ScopeStack} {moves outer inner : List Move} {s root : ScopeId} {i j : Nat}

/-- Do what a reader does, and tell which scope was left. -/
def perform (st : ScopeStack) : Move → Option ScopeId × ScopeStack
  | enter s => (none, st.push s)
  | leave => st.pop

/-- The stack after moves that were made one after the other. -/
def after (st : ScopeStack) (moves : List Move) : ScopeStack :=
  moves.foldl (fun st m => (st.perform m).2) st

/-- What is told at each of the moves. -/
def told (st : ScopeStack) : List Move → List (Option ScopeId)
  | [] => []
  | m :: moves => (st.perform m).1 :: (st.perform m).2.told moves

theorem after_append (st : ScopeStack) (moves more : List Move) :
    st.after (moves ++ more) = (st.after moves).after more := List.foldl_append

theorem after_enter (st : ScopeStack) (moves : List Move) (s : ScopeId) :
    st.after (moves ++ [enter s]) = (st.after moves).push s := after_append ..

theorem after_leave (st : ScopeStack) (moves : List Move) :
    st.after (moves ++ [leave]) = (st.after moves).pop.2 := after_append ..

/-- A move is told about as it is performed on the stack that the moves before it made. -/
theorem told_append (st : ScopeStack) (moves : List Move) (m : Move) (rest : List Move) :
    (st.told (moves ++ m :: rest))[moves.length]? = some ((st.after moves).perform m).1 := by
  induction moves generalizing st with
  | nil => rfl
  | cons first moves ih => exact ih (st.perform first).2

/-! ### Balanced moves -/

/-- Moves that leave nothing but what they entered only put scopes on top of the stack. -/
theorem after_covered (st : ScopeStack) (covered : Covered moves) :
    ∃ above : List ScopeId, st.after moves = above.foldl push st ∧
      entries moves = exits moves + above.length := by
  induction moves using List.reverseRecOn with
  | nil => exact ⟨[], rfl, rfl⟩
  | append_singleton moves m ih =>
    obtain ⟨above, stack, height⟩ := ih (covered.of_prefix (List.prefix_append ..))
    cases m with
    | enter s =>
      refine ⟨above ++ [s], ?_, ?_⟩
      · rw [after_enter, stack, List.foldl_concat]
      · simp [height, Nat.add_assoc]
    | leave =>
      obtain ⟨-, left⟩ := covered_concat_iff.mp covered
      rcases List.eq_nil_or_concat' above with rfl | ⟨below, s, rfl⟩
      · exact absurd height (Nat.ne_of_gt left)
      · refine ⟨below, ?_, ?_⟩
        · rw [after_leave, stack, List.foldl_concat, pop_push]
        · simp only [List.length_append, List.length_singleton] at height
          rw [entries_concat_leave, exits_concat_leave]
          omega

theorem after_balanced (st : ScopeStack) (balanced : Balanced moves) : st.after moves = st := by
  obtain ⟨above, stack, height⟩ := st.after_covered balanced.covered
  rw [balanced.even, Nat.left_eq_add, List.length_eq_zero_iff] at height
  rw [stack, height]
  rfl

/-- A scope behind whose entry all is balanced is the innermost one. -/
theorem after_open (st : ScopeStack) (balanced : Balanced inner) :
    st.after (outer ++ enter s :: inner) = (st.after outer).push s := by
  rw [List.append_cons, after_append, after_enter, after_balanced _ balanced]

/-- Whoever leaves is told the scope of the answering entry. -/
theorem told_of_matches (st : ScopeStack) (answers : Matches moves i s j) :
    (st.told moves)[j]? = some (some s) := by
  obtain ⟨outer, inner, rest, rfl, balanced, -, rfl⟩ := answers
  rw [told_append, after_open st balanced, perform, pop_push]

/-! ### Moves from the bottom -/

/-- Where all scopes that were entered are left again, the bottom is reached. -/
theorem after_closed (root : ScopeId) (closed : Closed moves) :
    (new root).after moves = new root := by
  induction length : moves.length using Nat.strongRecOn generalizing moves with
  | ind n ih =>
    subst length
    rcases List.eq_nil_or_concat' moves with rfl | ⟨before, m, rfl⟩
    · rfl
    · cases m with
      | enter s => exact absurd closed not_closed_concat_enter
      | leave =>
        rw [after_leave]
        rcases closed_or_open before with closed' | ⟨outer, s, inner, rfl, balanced⟩
        · rw [ih _ (by simp) closed' rfl]
          exact congrArg Prod.snd (pop_of_depth_eq_zero rfl)
        · rw [after_open _ balanced, pop_push]
          exact ih _ (by simp) (closed.of_pair balanced) rfl

/-- Above the bottom stand the scopes that were entered and not left. -/
theorem depth_after (root : ScopeId) (moves : List Move) :
    ((new root).after moves).depth = (unmatched moves).card := by
  induction length : moves.length using Nat.strongRecOn generalizing moves with
  | ind n ih =>
    subst length
    rcases closed_or_open moves with closed | ⟨outer, s, inner, rfl, balanced⟩
    · rw [after_closed root closed, closed.unmatched_eq]
      rfl
    · rw [after_open _ balanced, depth_push, card_unmatched_open balanced, ih _ (by simp) _ rfl]

theorem bottom_perform (st : ScopeStack) (m : Move) :
    (st.perform m).2.scopes[0]? = st.scopes[0]? := by
  cases m with
  | enter s =>
    rw [perform, push, Array.getElem?_push, if_neg (Nat.ne_of_lt st.rooted)]
  | leave =>
    rw [perform, pop]
    split
    next above => rw [Array.getElem?_pop, if_pos (Nat.sub_pos_of_lt above)]
    next => rfl

theorem bottom_after (st : ScopeStack) (moves : List Move) :
    (st.after moves).scopes[0]? = st.scopes[0]? := by
  induction moves generalizing st with
  | nil => rfl
  | cons m moves ih => exact (ih (st.perform m).2).trans (st.bottom_perform m)

/-- Where all scopes that were entered are left again, nothing is told to whoever leaves. -/
theorem told_of_closed (root : ScopeId) (left : moves[j]? = some leave)
    (closed : Closed (moves.take j)) : ((new root).told moves)[j]? = some none := by
  obtain ⟨split, place⟩ := take_cons_drop left
  have told := (new root).told_append (moves.take j) leave (moves.drop (j + 1))
  rw [split, place, after_closed root closed] at told
  exact told

/-- What is known of a stack after moves that began with the bottom alone. -/
structure Disciplined (root : ScopeId) (moves : List Move) (st : ScopeStack) : Prop where
  /-- The stack has a last scope, which is the innermost one. -/
  inBounds : st.scopes[st.scopes.size - 1]? = some st.current
  /-- The bottom is what it was. -/
  bottom : st.scopes[0]? = some root
  /-- The scopes above it are those that were entered and not left. -/
  depth : st.depth = (unmatched moves).card
  /-- At the bottom nothing is left and nothing changes. -/
  lowest : st.depth = 0 → st.pop = (none, st)

theorem disciplined_after (root : ScopeId) (moves : List Move) :
    Disciplined root moves ((new root).after moves) where
  inBounds := getElem?_current _
  bottom := bottom_after (new root) moves
  depth := depth_after root moves
  lowest := pop_of_depth_eq_zero

/-- From the bottom, whoever leaves is told the scope of the answering entry if there is one, and
nothing otherwise. -/
theorem exists_told (root : ScopeId) (left : moves[j]? = some leave) :
    ∃ answer, ((new root).told moves)[j]? = some answer ∧
      ∀ s, answer = some s ↔ ∃ i, Matches moves i s j := by
  rcases closed_or_matches left with closed | ⟨i, s, answers⟩
  · refine ⟨none, told_of_closed root left closed, fun s => ?_⟩
    exact iff_of_false nofun fun ⟨_, answers⟩ => closed.not_matches answers
  · refine ⟨some s, told_of_matches _ answers, fun r => ?_⟩
    constructor
    · rintro ⟨⟩
      exact ⟨i, answers⟩
    · rintro ⟨_, answers'⟩
      rw [(answers.unique answers').2]

/-- Stacks obey bracket discipline. Whatever is entered and left from the bottom on, the bottom
stays and above it stand the scopes that were entered and not left; whoever leaves is told the
scope of the answering entry, and nothing if there is none. Balanced moves leave any stack as it
was, and each time they leave a scope it is the one that was entered at the one place that this
answers. -/
theorem bracket_discipline :
    (∀ root moves, Disciplined root moves ((new root).after moves) ∧
      ∀ j, moves[j]? = some leave → ∃ answer, ((new root).told moves)[j]? = some answer ∧
        ∀ s, answer = some s ↔ ∃ i, Matches moves i s j) ∧
    ∀ (st : ScopeStack) moves, Balanced moves → st.after moves = st ∧
      ∀ j, moves[j]? = some leave → ∃ i s, Matches moves i s j ∧
        (∀ i' s', Matches moves i' s' j → i' = i ∧ s' = s) ∧
        (st.told moves)[j]? = some (some s) := by
  refine ⟨fun root moves => ⟨disciplined_after root moves, fun j => exists_told root⟩,
    fun st moves balanced => ⟨after_balanced st balanced, fun j left => ?_⟩⟩
  obtain ⟨i, s, answers⟩ := balanced.covered.exists_matches left
  exact ⟨i, s, answers, fun _ _ answers' => answers'.unique answers, told_of_matches st answers⟩

/-- Moves that try to leave the bottom. -/
def surplus : List Move :=
  [enter ⟨2⟩, leave, leave, enter ⟨3⟩, enter ⟨4⟩, leave, enter ⟨5⟩]

/-- Balanced moves that enter one scope twice. -/
def nested : List Move := [enter ⟨2⟩, enter ⟨3⟩, leave, enter ⟨2⟩, leave, leave]

theorem bracket_discipline_nested :
    ((new ⟨1⟩).after surplus).scopes[0]? = some ⟨1⟩ ∧ ((new ⟨1⟩).after surplus).depth = 2 ∧
    ((new ⟨1⟩).told surplus)[5]? = some (some ⟨4⟩) ∧ Balanced nested ∧
    ((new ⟨1⟩).push ⟨7⟩).after nested = (new ⟨1⟩).push ⟨7⟩ ∧ Matches nested 0 ⟨2⟩ 5 ∧
    (((new ⟨1⟩).push ⟨7⟩).told nested)[5]? = some (some ⟨2⟩) := by
  have balanced : Balanced nested := by decide
  have inside : Matches surplus 4 ⟨4⟩ 5 :=
    ⟨[enter ⟨2⟩, leave, leave, enter ⟨3⟩], [], [enter ⟨5⟩], rfl, by decide, rfl, rfl⟩
  have around : Matches nested 0 ⟨2⟩ 5 :=
    ⟨[], [enter ⟨3⟩, leave, enter ⟨2⟩, leave], [], rfl, by decide, rfl, rfl⟩
  obtain ⟨disciplined, told⟩ := bracket_discipline.1 ⟨1⟩ surplus
  obtain ⟨restored, told'⟩ := bracket_discipline.2 ((new ⟨1⟩).push ⟨7⟩) nested balanced
  obtain ⟨answer, here, answers⟩ := told 5 rfl
  obtain ⟨_, _, _, only, there⟩ := told' 5 rfl
  refine ⟨disciplined.bottom, disciplined.depth.trans (by decide), ?_, balanced, restored,
    around, ?_⟩
  · rw [here, (answers ⟨4⟩).mpr ⟨4, inside⟩]
  · rw [there, (only 0 ⟨2⟩ around).2]

end ScopeStack

end Scoping
