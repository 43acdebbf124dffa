import Scoping.Fault

/-!
# Configuration

What a table's owner may choose: how field slots are numbered, how wide one
level of an outline is, and what stands between the parts of a qualified name.
-/

namespace Scoping

/-- How the slots of fields are numbered in a class with a superclass. -/
inductive FieldLayout
  /-- Every class numbers its own fields from 0. -/
  | perClass
  /-- A class continues after the fields visible through its superclass. -/
  | inherited
deriving DecidableEq

/-- The choices a table is made with. -/
structure Config where
  fieldLayout : FieldLayout := .perClass
  indentWidth : Nat := 4
  pathSeparator : String := "."
deriving DecidableEq

namespace Config

/-- The default configuration but for the field layout. -/
def withFieldLayout (layout : FieldLayout) : Config := { fieldLayout := layout }

/-- The default configuration but for the indent width. -/
def withIndentWidth (width : Nat) : Config := { indentWidth := width }

/-- The default configuration but for the path separator. -/
def withPathSeparator (separator : String) : Config := { pathSeparator := separator }

/-- The longest that a text can be, in bytes. -/
def longestText : Nat := 1 <<< 63 - 1

/-- A text behind another one, if both together are no longer than a text can be. -/
def joined (text more : String) : Answer String :=
  if longestText < text.utf8ByteSize + more.utf8ByteSize then .error .textOverflow
  else .ok (text ++ more)

/-- How many blanks stand in front of a line at the given level. The number is one
of 64 bits, and the blanks are a text. -/
def columns (config : Config) (level : Nat) : Answer Nat :=
  let count := config.indentWidth * level
  if 1 <<< 64 ≤ count then .error .countOverflow
  else if longestText < count then .error .textOverflow
  else .ok count

/-- The blanks in front of a line at the given level. -/
def indent (config : Config) (level : Nat) : Answer String :=
  return String.ofList (List.replicate (← config.columns level) ' ')

end Config

end Scoping
