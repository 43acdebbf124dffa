import Std.Data.TreeMap

/-!
# Lexicons

A lexicon numbers distinct strings from 0 in the order of their first arrival.
It keeps the strings by number, and the number of each string, so that both
directions are one look-up. A number once given out keeps its string.
-/

namespace Scoping

/-- Distinct strings with their numbers. -/
structure Lexicon where
  strings : Array String
  ids : Std.TreeMap String Nat

namespace Lexicon

/-- The lexicon of no strings. -/
def empty : Lexicon := ⟨#[], ∅⟩

/-- The string numbered `id`. -/
def get? (lex : Lexicon) (id : Nat) : Option String := lex.strings[id]?

/-- The number of `s`, if it has one. -/
def idOf? (lex : Lexicon) (s : String) : Option Nat := lex.ids[s]?

/-- How many strings there are. -/
def size (lex : Lexicon) : Nat := lex.strings.size

/-- Whether there are no strings. -/
def isEmpty (lex : Lexicon) : Bool := lex.strings.isEmpty

/-- The strings in the order of their numbers. -/
def toList (lex : Lexicon) : List String := lex.strings.toList

/-- The number of `s`: the one it has, or else the next free one. -/
def add (lex : Lexicon) (s : String) : Nat × Lexicon :=
  match lex.idOf? s with
  | some id => (id, lex)
  | none => (lex.size, ⟨lex.strings.push s, lex.ids.insert s lex.size⟩)

/-- Add strings one after the other. -/
def addAll (lex : Lexicon) (strings : List String) : Lexicon :=
  strings.foldl (fun lex s => (lex.add s).2) lex

/-- The lexicon of a list of strings. -/
def ofList (strings : List String) : Lexicon := empty.addAll strings

/-- Two lexicons are equal when they hold the same strings under the same numbers. -/
instance : BEq Lexicon where
  beq a b := a.ids == b.ids && a.strings == b.strings

/-- The strings with their numbers, as in `{a=0, b=1}`. -/
def display (lex : Lexicon) : String :=
  "\x7b" ++ ", ".intercalate (lex.toList.zipIdx.map fun (s, id) => s!"{s}={id}") ++ "\x7d"

end Lexicon

end Scoping
