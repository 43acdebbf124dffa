import Scoping.Table.Member

/-!
# Slots

A field or method of a struct or class has a slot, given to it when it is
defined. Fields are numbered one after the other. A method that overrides an
inherited one takes over its slot, and every other method takes the next free
one. Numbering starts when the first such member is defined, from what is then
visible through the superclass.
-/

namespace Scoping

namespace Table

/-- The slot of the first field: 0, or with the inherited layout the number of
fields visible through the superclass. -/
def fieldBase (t : Table) (owner : SymbolId) : Answer Nat := do
  match ← t.superclass owner, t.config.fieldLayout with
  | some above, .inherited => t.fieldCount above
  | _, _ => return 0

/-- The slot of the first new method: one more than the highest slot visible
through the superclass. -/
def methodBase (t : Table) (owner : SymbolId) : Answer Nat := do
  match ← t.superclass owner with
  | none => return 0
  | some above =>
    let slots ← (← t.methods above).mapM t.slot?
    return (slots.filterMap id).max?.elim 0 (· + 1)

/-- The slot of the next field of `owner`. -/
def nextFieldSlot (t : Table) (owner : SymbolId) : Answer Nat := do
  match (← t.symbol owner).form.layout?.bind Layout.nextField with
  | some slot => return slot
  | none => t.fieldBase owner

/-- The slot of the next new method of `owner`. -/
def nextMethodSlot (t : Table) (owner : SymbolId) : Answer Nat := do
  match (← t.symbol owner).form.layout?.bind Layout.nextMethod with
  | some slot => return slot
  | none => t.methodBase owner

/-- The slot of the method that a method of this name overrides in `owner`. -/
def overriddenSlot? (t : Table) (owner : SymbolId) (name : Name) : Answer (Option Nat) := do
  match ← t.superclass owner with
  | none => return none
  | some above =>
    match ← t.methodNamed above name with
    | none => return none
    | some overridden => t.slot? overridden

/-- The table with the slot of a member set. -/
def setSlot (t : Table) (member : SymbolId) (slot : Nat) : Table :=
  t.modifySymbol member fun x => { x with form := x.form.withSlot slot }

/-- The table with the layout of a struct or class changed. -/
def modifyLayout (t : Table) (owner : SymbolId) (f : Layout → Layout) : Table :=
  t.modifySymbol owner fun x => { x with form := x.form.mapLayout f }

/-- Give a new member of a struct or class its slot. Structs and classes have none. -/
def assignSlot (t : Table) (owner member : SymbolId) : Answer Table := do
  let x ← t.symbol member
  match x.kind with
  | .field =>
    let slot ← t.nextFieldSlot owner
    return (t.modifyLayout owner ({ · with nextField := some (slot + 1) })).setSlot member slot
  | .method =>
    match ← t.overriddenSlot? owner x.name with
    | some slot => return t.setSlot member slot
    | none =>
      let slot ← t.nextMethodSlot owner
      return (t.modifyLayout owner ({ · with nextMethod := some (slot + 1) })).setSlot member slot
  | _ => return t

end Table

end Scoping
