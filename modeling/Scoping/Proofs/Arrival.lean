import Mathlib.Data.Finset.Card
import Mathlib.Data.List.Induction
import Scoping.Lexicon.Basic

/-!
# Order of arrival

A lexicon finds strings by number and numbers by string, and the two agree. The strings that
were added, without repetitions and in the order of their first arrival, are all that it
knows: they are its list, their places in the list are the numbers that were told, and two
lexicons are equal when their lists are.
-/

namespace Scoping

namespace Lexicon

variable {lex other : Lexicon} {r s : String} {i : Nat}

/-- A string has a number just when the number has the string. -/
def Sound (lex : Lexicon) : Prop := ∀ s i, lex.idOf? s = some i ↔ lex.get? i = some s

theorem sound_empty : empty.Sound := by
  intro s i
  simp [empty, idOf?, get?]

theorem add_of_known (known : lex.idOf? s = some i) : lex.add s = (i, lex) := by
  rw [add, known]

theorem add_of_new (new : lex.idOf? s = none) :
    lex.add s = (lex.size, ⟨lex.strings.push s, lex.ids.insert s lex.size⟩) := by
  rw [add, new]

/-- A string keeps its number. -/
theorem get?_add (held : lex.get? i = some r) (s : String) : (lex.add s).2.get? i = some r := by
  cases known : lex.idOf? s with
  | some j => rwa [add_of_known known]
  | none =>
    have before : i < lex.strings.size := (Array.getElem?_eq_some_iff.mp held).1
    rw [add_of_new known, get?, Array.getElem?_push, if_neg (Nat.ne_of_lt before)]
    exact held

theorem get?_addAll (held : lex.get? i = some r) (strings : List String) :
    (lex.addAll strings).get? i = some r := by
  induction strings generalizing lex with
  | nil => exact held
  | cons s strings ih => exact ih (get?_add held s)

theorem get?_eq_getElem? : lex.get? i = lex.toList[i]? := Array.getElem?_toList.symm

theorem addAll_append (lex : Lexicon) (strings more : List String) :
    lex.addAll (strings ++ more) = (lex.addAll strings).addAll more := List.foldl_append

namespace Sound

theorem get?_add_self (sound : lex.Sound) (s : String) :
    (lex.add s).2.get? (lex.add s).1 = some s := by
  cases known : lex.idOf? s with
  | some j =>
    rw [add_of_known known]
    exact (sound s j).mp known
  | none =>
    rw [add_of_new known]
    exact Array.getElem?_push_size

theorem add (sound : lex.Sound) (s : String) : (lex.add s).2.Sound := by
  cases known : lex.idOf? s with
  | some j => rwa [add_of_known known]
  | none =>
    intro r i
    have old := sound r i
    have unused : lex.get? lex.size = none := Array.getElem?_eq_none (Nat.le_refl _)
    simp only [idOf?, get?, size] at known old unused
    rw [add_of_new known]
    simp only [idOf?, get?, size, Std.TreeMap.getElem?_insert, Std.compare_eq_iff_eq,
      Array.getElem?_push]
    by_cases same : s = r
    · subst same
      by_cases last : i = lex.strings.size
      · simp [last]
      · -- the string is new, so no other number has it
        rw [if_pos rfl, if_neg last, ← old, known]
        simp [Ne.symm last]
    · by_cases last : i = lex.strings.size
      · subst last
        rw [if_neg same, if_pos rfl, old, unused]
        simp [same]
      · rw [if_neg same, if_neg last, old]

theorem addAll (sound : lex.Sound) (strings : List String) : (lex.addAll strings).Sound := by
  induction strings generalizing lex with
  | nil => exact sound
  | cons s strings ih => exact ih (sound.add s)

theorem ofList (strings : List String) : (Lexicon.ofList strings).Sound := sound_empty.addAll strings

/-! ### The list of the strings -/

/-- A number is the place of its string in the list. -/
theorem idOf?_eq_some_iff (sound : lex.Sound) : lex.idOf? s = some i ↔ lex.toList[i]? = some s := by
  rw [sound, get?_eq_getElem?]

theorem nodup (sound : lex.Sound) : lex.toList.Nodup := by
  refine List.nodup_iff_getElem?_ne_getElem?.mpr fun i j before short same => ?_
  have first : lex.toList[i]? = some lex.toList[i] := List.getElem?_eq_getElem _
  have one := sound.idOf?_eq_some_iff.mpr first
  have two := sound.idOf?_eq_some_iff.mpr (same.symm.trans first)
  exact Nat.ne_of_lt before (Option.some.inj (one.symm.trans two))

theorem idOf?_eq_none_iff (sound : lex.Sound) : lex.idOf? s = none ↔ s ∉ lex.toList := by
  rw [Option.eq_none_iff_forall_ne_some, List.mem_iff_getElem?]
  simp only [ne_eq, sound.idOf?_eq_some_iff, not_exists]

/-- A number that has the string is the string's place in the list. -/
theorem idxOf_eq (sound : lex.Sound) (held : lex.get? i = some s) : lex.toList.idxOf s = i := by
  rw [get?_eq_getElem?] at held
  obtain ⟨short, rfl⟩ := List.getElem?_eq_some_iff.mp held
  exact sound.nodup.idxOf_getElem i short

/-- A string that the list does not hold is put behind the others. -/
theorem toList_add (sound : lex.Sound) (s : String) :
    (lex.add s).2.toList = if s ∈ lex.toList then lex.toList else lex.toList ++ [s] := by
  cases known : lex.idOf? s with
  | some i =>
    have held : s ∈ lex.toList := List.mem_of_getElem? (sound.idOf?_eq_some_iff.mp known)
    rw [add_of_known known, if_pos held]
  | none =>
    rw [add_of_new known, if_neg (sound.idOf?_eq_none_iff.mp known)]
    exact Array.toList_push

/-- Lexicons with the same list are equal. -/
theorem beq_iff (sound : lex.Sound) (sound' : other.Sound) :
    (lex == other) = true ↔ lex.toList = other.toList := by
  have opened : (lex == other) = (lex.ids == other.ids && lex.strings == other.strings) := rfl
  rw [opened, Bool.and_eq_true, Std.TreeMap.beq_iff_equiv, beq_iff_eq]
  constructor
  · rintro ⟨_, strings⟩
    exact congrArg Array.toList strings
  · intro same
    refine ⟨.of_forall_constGet?_eq fun s => ?_, Array.toList_inj.mp same⟩
    have numbers : ∀ i, lex.idOf? s = some i ↔ other.idOf? s = some i := fun i => by
      rw [sound.idOf?_eq_some_iff, sound'.idOf?_eq_some_iff, same]
    exact Option.ext numbers

end Sound

theorem ofList_concat (strings : List String) (s : String) :
    ofList (strings ++ [s]) = ((ofList strings).add s).2 := addAll_append empty strings [s]

/-- The list holds what was added, without later repetitions. -/
theorem toList_ofList (strings : List String) : (ofList strings).toList = strings.eraseDups := by
  induction strings using List.reverseRecOn with
  | nil => rfl
  | append_singleton strings s ih =>
    rw [ofList_concat, (Sound.ofList strings).toList_add, ih, List.eraseDups_append]
    by_cases before : s ∈ strings
    · simp [List.removeAll, before]
    · simp [List.removeAll, before, List.eraseDups_cons]

/-! ### The numbers that were told -/

/-- Add strings one after the other and tell the number of each. -/
def addEach (lex : Lexicon) : List String → List Nat × Lexicon
  | [] => ([], lex)
  | s :: strings =>
    let rest := (lex.add s).2.addEach strings
    ((lex.add s).1 :: rest.1, rest.2)

/-- The numbers told on the way are the places in the list at the end. -/
theorem Sound.addEach_eq (sound : lex.Sound) (strings : List String) : lex.addEach strings =
    (strings.map (lex.addAll strings).toList.idxOf, lex.addAll strings) := by
  induction strings generalizing lex with
  | nil => rfl
  | cons s strings ih =>
    have held := get?_addAll (sound.get?_add_self s) strings
    have place := ((sound.add s).addAll strings).idxOf_eq held
    rw [addEach, ih (sound.add s)]
    exact Prod.ext (congrArg (· :: _) place.symm) rfl

/-- A lexicon to which strings were added holds them in the order of their first arrival. Each
addition told the place of its string, and the string stays there whatever is added later.
Lexicons are equal just when the same strings came to both in the same order for the first
time. -/
theorem first_arrivals (strings : List String) :
    (ofList strings).toList = strings.eraseDups ∧
    empty.addEach strings = (strings.map strings.eraseDups.idxOf, ofList strings) ∧
    (∀ i s, (ofList strings).get? i = some s ↔ (ofList strings).idOf? s = some i) ∧
    (ofList strings).size = strings.toFinset.card ∧
    (∀ i s more, (ofList strings).get? i = some s →
      (ofList (strings ++ more)).get? i = some s) ∧
    ∀ others, (ofList strings == ofList others) = true ↔ strings.eraseDups = others.eraseDups := by
  have sound := Sound.ofList strings
  have list := toList_ofList strings
  refine ⟨list, ?_, fun i s => (sound s i).symm, ?_, fun i s more held => ?_, fun others => ?_⟩
  · rw [← list]
    exact sound_empty.addEach_eq strings
  · have same : strings.toFinset = (ofList strings).toList.toFinset := by
      ext s
      rw [list, List.mem_toFinset, List.mem_toFinset, List.mem_eraseDups]
    rw [same, List.toFinset_card_of_nodup sound.nodup]
    rfl
  · rw [ofList, addAll_append]
    exact get?_addAll held more
  · rw [sound.beq_iff (.ofList others), list, toList_ofList]

theorem first_arrivals_repeated :
    empty.addEach ["b", "a", "b", "c"] = ([0, 1, 0, 2], ofList ["b", "a", "b", "c"]) ∧
    (ofList ["b", "a", "b", "c"]).get? 1 = some "a" ∧
    (ofList (["b", "a", "b", "c"] ++ ["d", "b"])).get? 1 = some "a" ∧
    (ofList ["b", "a", "b", "c"] == ofList ["b", "a", "c", "a"]) = true ∧
    (ofList ["b", "a", "b", "c"] == ofList ["a", "b", "c"]) = false := by
  obtain ⟨_, told, numbers, _, keeps, equal⟩ := first_arrivals ["b", "a", "b", "c"]
  have held : (ofList ["b", "a", "b", "c"]).get? 1 = some "a" := by decide +kernel
  refine ⟨told.trans (congrArg (·, _) (by decide)), held, keeps 1 "a" ["d", "b"] held, ?_, ?_⟩
  · exact (equal _).mpr (by decide)
  · rw [Bool.eq_false_iff, Ne, equal]
    decide

end Lexicon

end Scoping
