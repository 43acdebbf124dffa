import Scoping.Handle
import Scoping.Lexicon.Basic

/-!
# Names

Every name is stored once and compared by its number. The empty string is there
from the start under the number 0. An interner holds at most as many strings as
there are 32-bit numbers.
-/

namespace Scoping

/-- Interned strings. -/
structure Names where
  lexicon : Lexicon

/-- Interning would give out more numbers than there are. -/
structure Overflow where
  count : Nat
deriving DecidableEq

/-- A number in upper-case hexadecimal. -/
def upperHex (n : Nat) : String :=
  String.ofList ((Nat.toDigits 16 n).map Char.toUpper)

/-- The largest number that a name can have. -/
def Overflow.limit : Nat := 1 <<< 32 - 1

/-- The text of the error. -/
def Overflow.message (e : Overflow) : String :=
  let (count, hex, limit, limitHex) := (e.count, upperHex e.count, limit, upperHex limit)
  s!"interner exceeded capacity: {count} strings (0x{hex}), max is {limit} (0x{limitHex})"

namespace Names

/-- The interner that holds the empty string alone. -/
def start : Names := ⟨.ofList [""]⟩

/-- The name of a string, if it has one. -/
def find? (names : Names) (s : String) : Option Name := (names.lexicon.idOf? s).map Name.mk

/-- The string of a name. An unknown name reads as the empty string. -/
def text (names : Names) (n : Name) : String := (names.lexicon.get? n.index).getD ""

/-- How many strings there are, the empty one included. -/
def size (names : Names) : Nat := names.lexicon.size

/-- Whether there are no strings. The empty string is always there. -/
def isEmpty (names : Names) : Bool := names.lexicon.isEmpty

/-- The name of a string: the one it has, or else the next free one. -/
def intern (names : Names) (s : String) : Name × Names :=
  let (id, lexicon) := names.lexicon.add s
  (⟨id⟩, ⟨lexicon⟩)

/-- The name of a string, or an error if it is new and all numbers are given out. -/
def tryIntern (names : Names) (s : String) : Except Overflow (Name × Names) :=
  if (names.find? s).isNone ∧ Overflow.limit < names.size then .error ⟨names.size⟩
  else .ok (names.intern s)

end Names

end Scoping
