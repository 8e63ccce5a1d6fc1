import DexContainer.Decoding.Source
import DexContainer.Item.Places

/-! Encoded values without parts. A value starts with a byte that holds its type in the low five
bits and an argument above them, mostly the number of bytes that follow, less one. Every number
takes as few bytes as it can: signed numbers are extended by their sign, unsigned numbers and
indices by zeros, and floating-point bits by zeros on the right. -/

namespace DexContainer

/-- A value without parts. -/
inductive Scalar
  | byte (value : Int8)
  | short (value : Int16)
  | char (value : UInt16)
  | int (value : Int32)
  | long (value : Int64)
  | float (bits : UInt32)
  | double (bits : UInt64)
  | methodType (proto : Handle .protoId)
  /-- An index into a table that is not part of the container. -/
  | methodHandle (index : UInt32)
  | string (value : Handle .stringId)
  | type (value : Handle .typeId)
  | field (value : Handle .fieldId)
  | method (value : Handle .methodId)
  | enum (value : Handle .fieldId)
  | null
  | boolean (value : Bool)
deriving DecidableEq, Hashable, Repr

namespace Scalar

/-! ### Widths -/

/-- The number fits a signed word of this many bytes. -/
def fitsSigned (v : Int) (width : Nat) : Bool :=
  decide (-(2 ^ (8 * width - 1) : Int) ≤ v ∧ v < 2 ^ (8 * width - 1))

/-- The least width, up to eight bytes, of a signed number. -/
def signedWidth (v : Int) : Nat := ((List.range' 1 7).find? (fitsSigned v)).getD 8

/-- The least width, up to eight bytes, of an unsigned number. -/
def unsignedWidth (n : Nat) : Nat :=
  ((List.range' 1 7).find? fun width => decide (n < 256 ^ width)).getD 8

/-- The number of low bytes that are zero, at most `limit`. -/
def zeroBytes : (limit : Nat) → Nat → Nat
  | 0, _ => 0
  | limit + 1, n => if n % 256 = 0 then zeroBytes limit (n / 256) + 1 else 0

/-- The least width, of `total` bytes, of bits that are extended on the right. -/
def rightZeroWidth (bits total : Nat) : Nat := total - zeroBytes (total - 1) bits

/-! ### Writing -/

/-- The first byte of a value. -/
def leadByte (valueType argument : Nat) : UInt8 := UInt8.ofNat (argument % 8 * 32 + valueType)

/-- A number that is extended by its sign. -/
def writeSigned (valueType : Nat) (v : Int) : Bytes :=
  let width := signedWidth v
  leadByte valueType (width - 1) :: Word.bytes width (v % 2 ^ 64).toNat

/-- A number that is extended by zeros. -/
def writeUnsigned (valueType n : Nat) : Bytes :=
  let width := unsignedWidth n
  leadByte valueType (width - 1) :: Word.bytes width n

/-- Bits that are extended by zeros on the right. -/
def writeRightZero (valueType bits total : Nat) : Bytes :=
  let width := rightZeroWidth bits total
  leadByte valueType (width - 1) :: Word.bytes width (bits / 256 ^ (total - width))

/-- The bytes of a value. -/
def write (places : Places) : Scalar → Written
  | .byte v => pure [leadByte 0x00 0, v.toUInt8]
  | .short v => pure (writeSigned 0x02 v.toInt)
  | .char v => pure (writeUnsigned 0x03 v.toNat)
  | .int v => pure (writeSigned 0x04 v.toInt)
  | .long v => pure (writeSigned 0x06 v.toInt)
  | .float bits => pure (writeRightZero 0x10 bits.toNat 4)
  | .double bits => pure (writeRightZero 0x11 bits.toNat 8)
  | .methodType h => writeUnsigned 0x15 <$> places.position h
  | .methodHandle index => pure (writeUnsigned 0x16 index.toNat)
  | .string h => writeUnsigned 0x17 <$> places.position h
  | .type h => writeUnsigned 0x18 <$> places.position h
  | .field h => writeUnsigned 0x19 <$> places.position h
  | .method h => writeUnsigned 0x1a <$> places.position h
  | .enum h => writeUnsigned 0x1b <$> places.position h
  | .null => pure [leadByte 0x1e 0]
  | .boolean v => pure [leadByte 0x1f v.toNat]

/-- The length of a value. -/
def size (places : Places) : Scalar → Size
  | .byte _ => pure 2
  | .short v => pure (1 + signedWidth v.toInt)
  | .char v => pure (1 + unsignedWidth v.toNat)
  | .int v => pure (1 + signedWidth v.toInt)
  | .long v => pure (1 + signedWidth v.toInt)
  | .float bits => pure (1 + rightZeroWidth bits.toNat 4)
  | .double bits => pure (1 + rightZeroWidth bits.toNat 8)
  | .methodType h => do return 1 + unsignedWidth (← places.position h)
  | .methodHandle index => pure (1 + unsignedWidth index.toNat)
  | .string h => do return 1 + unsignedWidth (← places.position h)
  | .type h => do return 1 + unsignedWidth (← places.position h)
  | .field h => do return 1 + unsignedWidth (← places.position h)
  | .method h => do return 1 + unsignedWidth (← places.position h)
  | .enum h => do return 1 + unsignedWidth (← places.position h)
  | .null => pure 1
  | .boolean _ => pure 1

/-! ### Reading -/

/-- An unsigned number of a given width. -/
def readUnsigned (width : Nat) : Decoder Nat := do return Word.ofBytes (← Decoder.bytes width)

/-- A signed number of a given width. -/
def readSigned (width : Nat) : Decoder Int := do
  return (Word.ofBytes (← Decoder.bytes width) : Int).bmod (2 ^ (8 * width))

/-- Reads what follows the first byte of a value, which stood at `start`. -/
def decode (start valueType argument : Nat) : Decoder Scalar := do
  let width := argument + 1
  let upTo (limit : Nat) : Decoder Unit :=
    if limit < width then throw (.invalidValue start (.valueWidth valueType width)) else pure ()
  match valueType with
  | 0x00 => do upTo 1; return .byte (Int8.ofInt (← readSigned width))
  | 0x02 => do upTo 2; return .short (Int16.ofInt (← readSigned width))
  | 0x03 => do upTo 2; return .char (UInt16.ofNat (← readUnsigned width))
  | 0x04 => do upTo 4; return .int (Int32.ofInt (← readSigned width))
  | 0x06 => do return .long (Int64.ofInt (← readSigned width))
  | 0x10 => do upTo 4; return .float (UInt32.ofNat (256 ^ (4 - width) * (← readUnsigned width)))
  | 0x11 => do return .double (UInt64.ofNat (256 ^ (8 - width) * (← readUnsigned width)))
  | 0x15 => do upTo 4; return .methodType (← Decoder.index _ (← readUnsigned width))
  | 0x16 => do upTo 4; return .methodHandle (UInt32.ofNat (← readUnsigned width))
  | 0x17 => do upTo 4; return .string (← Decoder.index _ (← readUnsigned width))
  | 0x18 => do upTo 4; return .type (← Decoder.index _ (← readUnsigned width))
  | 0x19 => do upTo 4; return .field (← Decoder.index _ (← readUnsigned width))
  | 0x1a => do upTo 4; return .method (← Decoder.index _ (← readUnsigned width))
  | 0x1b => do upTo 4; return .enum (← Decoder.index _ (← readUnsigned width))
  | 0x1e => return .null
  | 0x1f => do upTo 2; return .boolean (argument == 1)
  | _ => throw (.invalidValue start (.unknownValueType valueType))

end Scalar

end DexContainer
