import Scoping.Lexicon.Quoted

/-!
# Shared lexicons

Several holders may write into one lexicon. Each holder has a handle, and the
handles made by cloning one another lead to the same store. A snapshot is a
plain lexicon of its own: later additions reach neither it nor, through it, the
store.
-/

namespace Scoping

/-- A holder's way into a store. -/
structure Holder where
  index : Nat
deriving DecidableEq

/-- Stores, and for each holder the store it writes into. -/
structure SharedLexicons where
  stores : Array Lexicon
  holders : Array Nat

namespace SharedLexicons

/-- One holder with one empty store. -/
def single : SharedLexicons := ⟨#[.empty], #[0]⟩

/-- The number of the store that `h` writes into. -/
def storeOf? (m : SharedLexicons) (h : Holder) : Option Nat := m.holders[h.index]?

/-- What `h` sees: a plain lexicon, copied out. -/
def snapshot? (m : SharedLexicons) (h : Holder) : Option Lexicon := do
  m.stores[← m.storeOf? h]?

/-- A new holder with an empty store of its own. -/
def fresh (m : SharedLexicons) : Holder × SharedLexicons :=
  (⟨m.holders.size⟩, ⟨m.stores.push .empty, m.holders.push m.stores.size⟩)

/-- A new holder of the store that `h` writes into. -/
def clone? (m : SharedLexicons) (h : Holder) : Option (Holder × SharedLexicons) := do
  let store ← m.storeOf? h
  some (⟨m.holders.size⟩, { m with holders := m.holders.push store })

/-- Add a string through `h`. A string that is there already is only looked up. -/
def add? (m : SharedLexicons) (h : Holder) (s : String) : Option (Nat × SharedLexicons) := do
  let store ← m.storeOf? h
  let lex ← m.stores[store]?
  match lex.idOf? s with
  | some id => some (id, m)
  | none =>
    let (id, lex) := lex.add s
    some (id, { m with stores := m.stores.setIfInBounds store lex })

/-- What `h` sees, as a diagnostic shows it. -/
def describe? (m : SharedLexicons) (h : Holder) : Option String := do
  let lex ← m.snapshot? h
  some ("SharedStringTable(" ++ lex.describe ++ ")")

end SharedLexicons

end Scoping
