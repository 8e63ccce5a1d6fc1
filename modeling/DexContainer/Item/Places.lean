import DexContainer.Kind
import DexContainer.Violation
import DexContainer.Bytes.Leb128

/-! Where the items of a container stand, as far as an item needs to know it to measure or write
itself: the position of every item that it may refer to, and for the header the length and offset
of every table. The position of an item of an indexed kind is its number in the section, that of
any other item is its offset in the file. -/

namespace DexContainer

/-- The positions of the items of a container. -/
structure Places where
  position? : (k : Kind) → Handle k → Option Nat
  /-- The length and the offset of a section; the offset of an empty section is zero. -/
  table : Kind → Nat × Nat

namespace Places

variable {k : Kind}

/-- The index that is written for an absent reference. -/
def noIndex : Nat := 0xffffffff

/-- The position of an item that must have one. -/
def position (places : Places) (h : Handle k) : Except Violation Nat :=
  match places.position? k h with
  | some n => pure n
  | none => throw (.unplaced k h.id)

/-- The index of an item that may be absent. -/
def optionalIndex (places : Places) : Option (Handle k) → Except Violation Nat
  | none => pure noIndex
  | some h => places.position h

/-- The offset of an item that may be absent. -/
def optionalOffset (places : Places) : Option (Handle k) → Except Violation Nat
  | none => pure 0
  | some h => places.position h

/-- The position of an item that may be absent. -/
def optionalPosition (places : Places) : Option (Handle k) → Except Violation (Option Nat)
  | none => pure none
  | some h => some <$> places.position h

end Places

/-- What measures an item: its length, or the condition that it breaks. -/
abbrev Size := Except Violation Nat

/-- What writes an item: its bytes, or the condition that it breaks. -/
abbrev Written := Except Violation Bytes

/-- The sum of the lengths of the members of a list. -/
def sizeOfAll (size : α → Size) (xs : List α) : Size := do return (← xs.mapM size).sum

/-- The bytes of the members of a list, one after the other. -/
def writeAll (write : α → Written) (xs : List α) : Written := do return (← xs.mapM write).flatten

end DexContainer
