import DexContainer.Bytes.Alignment
import DexContainer.Bytes.Leb128
import DexContainer.Decoding.References

/-! A decoder reads an image from a position on. It moves the position past what it has read and
collects references; a read that reaches past the end of the image fails and leaves the position
where it was, so the position after a failure tells how far a decoder came. -/

namespace DexContainer

/-- An image under decoding. -/
structure Source where
  image : Array UInt8
  position : Nat := 0
  references : References := {}
  /-- Registers in the longer signed form keep that form. -/
  keepsSigned : Bool := true

/-- A reader of values from an image. -/
abbrev Decoder := EStateM Fault Source

namespace Source

/-- The bytes from the position on. -/
def rest (s : Source) : Bytes := s.image.toList.drop s.position

/-- The number of bytes from the position on. -/
def remaining (s : Source) : Nat := s.image.size - s.position

/-- The source with its position moved past some bytes. -/
def advance (s : Source) (count : Nat) : Source := { s with position := s.position + count }

end Source

namespace Decoder

/-- The position of the next byte. -/
def position : Decoder Nat := fun s => .ok s.position s

/-- The number of bytes left. -/
def remaining : Decoder Nat := fun s => .ok s.remaining s

/-- Moves to a position that is not past the end. -/
def seek (position : Nat) : Decoder Unit := fun s =>
  if position ≤ s.image.size then .ok () { s with position := position }
  else .error (.unexpectedEnd position (position - s.image.size)) s

/-- Moves to the next aligned position. -/
def align (alignment : Nat) : Decoder Unit := fun s => seek (alignUp s.position alignment) s

/-- The next `count` bytes. -/
def bytes (count : Nat) : Decoder Bytes := fun s =>
  if s.position + count ≤ s.image.size then
    .ok (s.image.extract s.position (s.position + count)).toList (s.advance count)
  else .error (.unexpectedEnd s.position count) s

/-- The next `count` bytes as a field of fixed width. -/
def vector (count : Nat) : Decoder (Vector UInt8 count) := fun s =>
  if h : s.position + count ≤ s.image.size then
    .ok ⟨s.image.extract s.position (s.position + count), by simp; omega⟩ (s.advance count)
  else .error (.unexpectedEnd s.position count) s

/-- The next byte. -/
def byte : Decoder UInt8 := fun s =>
  match s.image[s.position]? with
  | some b => .ok b (s.advance 1)
  | none => .error (.unexpectedEnd s.position 1) s

/-- The next 16-bit word. -/
def half : Decoder Nat := do return Word.ofBytes (← bytes 2)

/-- The next 32-bit word. -/
def word : Decoder Nat := do return Word.ofBytes (← bytes 4)

/-- The references met so far. -/
def references : Decoder References := fun s => .ok s.references s

/-! ### Numbers in seven-bit groups -/

/-- At most `limit` groups, the last of them the first without a continuation mark. -/
def groupsWithin (failure : Fault) : (limit : Nat) → Decoder (List Nat)
  | 0 => throw failure
  | limit + 1 => do
    let b ← byte
    if b < 128 then return [b.toNat]
    else return (b.toNat % 128) :: (← groupsWithin failure limit)

/-- The groups of one number. -/
def groups (defect : Defect) : Decoder (List Nat) := do
  let start ← position
  groupsWithin (.invalidValue start defect) Leb128.maxGroups

/-- An unsigned number and the number of bytes that it took. -/
def unsignedWithLength : Decoder (Nat × Nat) := do
  let gs ← groups .overlongUnsigned
  return (Leb128.wordOfGroups gs, gs.length)

/-- An unsigned number. -/
def unsigned : Decoder Nat := do return (← unsignedWithLength).1

/-- A signed number. -/
def signed : Decoder Int := do return Leb128.intOfGroups (← groups .overlongSigned)

/-- An optional number, which is written one higher. -/
def plusOne : Decoder (Option Nat) := do
  let n ← unsigned
  return if n = 0 then none else some (n - 1)

/-! ### References -/

/-- The index that stands for an absent reference. -/
def noIndex : Nat := 0xffffffff

/-- A reference by index. -/
def index (k : Kind) (n : Nat) : Decoder (Handle k) :=
  fun ⟨image, position, references, keepsSigned⟩ =>
    .ok ⟨n⟩ ⟨image, position, references.note k n, keepsSigned⟩

/-- A reference by index, absent when it is `noIndex`. -/
def optionalIndex (k : Kind) (n : Nat) : Decoder (Option (Handle k)) :=
  if n = noIndex then pure none else some <$> index k n

/-- A reference by offset. -/
def offset (k : Kind) (n : Nat) : Decoder (Handle k) :=
  fun ⟨image, position, references, keepsSigned⟩ =>
    match references.reserve k n with
    | (slot, references) => .ok ⟨slot⟩ ⟨image, position, references, keepsSigned⟩

/-- A reference by offset, absent when it is zero. -/
def optionalOffset (k : Kind) (n : Nat) : Decoder (Option (Handle k)) :=
  if n = 0 then pure none else some <$> offset k n

/-- A reference by index, absent when there is no number. -/
def indexOfOption (k : Kind) : Option Nat → Decoder (Option (Handle k))
  | none => pure none
  | some n => some <$> index k n

/-- Whether registers in the signed form keep it. -/
def keepsSigned : Decoder Bool := fun s => .ok s.keepsSigned s

/-! ### Repetition -/

/-- Reads `count` values and adds them to those read before, which stand in reverse. -/
def timesOnto (d : Decoder α) : (count : Nat) → List α → Decoder (List α)
  | 0, read => pure read.reverse
  | count + 1, read => do
    let a ← d
    timesOnto d count (a :: read)

/-- Reads `count` values. -/
def times (count : Nat) (d : Decoder α) : Decoder (List α) := timesOnto d count []

/-- Takes the outcome of a check that reads nothing. -/
def ofExcept : Except Fault α → Decoder α
  | .ok a => pure a
  | .error e => throw e

end Decoder

end DexContainer
