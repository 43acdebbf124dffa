import Scoping.Lexicon.Basic

/-!
# Quoted text

A diagnostic shows a string between double quotes. A quote, a backslash and the
control characters inside it are escaped, so that the text stays on one line.
Escaping covers ASCII; other characters are written as themselves.
-/

namespace Scoping

/-- A character as it stands between the quotes. -/
def Quoted.escape (c : Char) : List Char :=
  if c = '"' then ['\\', '"']
  else if c = '\\' then ['\\', '\\']
  else if c = '\n' then ['\\', 'n']
  else if c = '\r' then ['\\', 'r']
  else if c = '\t' then ['\\', 't']
  else if c.toNat = 0 then ['\\', '0']
  else if c.toNat < 32 ∨ c.toNat = 127 then
    ['\\', 'u', '\x7b'] ++ Nat.toDigits 16 c.toNat ++ ['\x7d']
  else [c]

/-- A string between quotes. -/
def quoted (s : String) : String :=
  String.ofList ('"' :: s.toList.flatMap Quoted.escape ++ ['"'])

namespace Lexicon

/-- The lexicon as a diagnostic shows it. -/
def describe (lex : Lexicon) : String :=
  let ids := lex.toList.zipIdx.map fun (s, id) => s!"{quoted s}: {id}"
  let strings := lex.toList.map quoted
  "StringTable \x7b ids: \x7b" ++ ", ".intercalate ids ++ "\x7d, strings: ["
    ++ ", ".intercalate strings ++ "] \x7d"

end Lexicon

end Scoping
