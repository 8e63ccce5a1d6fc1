import DexContainer.Decoding.Source
import DexContainer.Item.Places

/-! Debug information: the first line of a method, the names of its parameters and a program that
moves through lines and local variables. A register is an unsigned number; some older images hold
it in the signed form, which takes one byte more for some values, and that form is remembered so
that it can be written again. -/

namespace DexContainer

/-- A register, and whether it is written in the signed form. -/
structure Register where
  value : UInt32
  isSigned : Bool := false
deriving DecidableEq, Hashable, Repr

/-- A step of a debug program. -/
inductive DebugOp
  | advancePc (amount : UInt32)
  | advanceLine (amount : Int32)
  | startLocal (register : Register) (name : Option (Handle .stringId))
      (type : Option (Handle .typeId))
  | startLocalExtended (register : Register) (name : Option (Handle .stringId))
      (type : Option (Handle .typeId)) (signature : Option (Handle .stringId))
  | endLocal (register : Register)
  | restartLocal (register : Register)
  | setPrologueEnd
  | setEpilogueBegin
  | setFile (name : Option (Handle .stringId))
  /-- Advances line and address together; the opcodes from 0x0a on. -/
  | special (opcode : UInt8)
deriving DecidableEq, Hashable, Repr

/-- The debug information of a method. The opcode that ends the program is not among its steps. -/
structure DebugInfo where
  lineStart : UInt32
  parameterNames : List (Option (Handle .stringId))
  ops : List DebugOp
deriving DecidableEq, Hashable, Repr

namespace Register

/-- The value as a signed word. -/
def signedValue (r : Register) : Int := r.value.toInt32.toInt

/-- The length of a register. -/
def size (r : Register) : Nat :=
  if r.isSigned then Leb128.signedSize r.signedValue else Leb128.unsignedSize r.value.toNat

/-- The bytes of a register. -/
def write (r : Register) : Bytes :=
  if r.isSigned then Leb128.signed r.signedValue else Leb128.unsigned r.value.toNat

/-- Reads a register. It was in the signed form when it took exactly the bytes of that form, and
more than the unsigned form needs. -/
def decode : Decoder Register := do
  let (n, length) ← Decoder.unsignedWithLength
  let r : Register := { value := UInt32.ofNat n }
  let isSigned := (← Decoder.keepsSigned) && decide (Leb128.unsignedSize n < length) &&
    length == Leb128.signedSize r.signedValue
  return { r with isSigned }

end Register

variable {k : Kind}

/-- The length of a reference that may be absent. -/
def DebugOp.sizeOfReference (places : Places) (h : Option (Handle k)) : Size := do
  return Leb128.plusOneSize (← places.optionalPosition h)

/-- The bytes of a reference that may be absent. -/
def DebugOp.writeReference (places : Places) (h : Option (Handle k)) : Written := do
  return Leb128.plusOne (← places.optionalPosition h)

/-- Reads a reference that may be absent. -/
def DebugOp.decodeReference (k : Kind) : Decoder (Option (Handle k)) := do
  Decoder.indexOfOption k (← Decoder.plusOne)

namespace DebugOp

/-- The length of a step. -/
def size (places : Places) : DebugOp → Size
  | .advancePc n => pure (1 + Leb128.unsignedSize n.toNat)
  | .advanceLine n => pure (1 + Leb128.signedSize n.toInt)
  | .startLocal register name type => do
    let name ← sizeOfReference places name
    let type ← sizeOfReference places type
    return 1 + (register.size + name + type)
  | .startLocalExtended register name type signature => do
    let name ← sizeOfReference places name
    let type ← sizeOfReference places type
    let signature ← sizeOfReference places signature
    return 1 + (register.size + name + type + signature)
  | .endLocal register | .restartLocal register => pure (1 + register.size)
  | .setPrologueEnd | .setEpilogueBegin | .special _ => pure 1
  | .setFile name => do return 1 + (← sizeOfReference places name)

/-- The bytes of a step. -/
def write (places : Places) : DebugOp → Written
  | .advancePc n => pure (0x01 :: Leb128.unsigned n.toNat)
  | .advanceLine n => pure (0x02 :: Leb128.signed n.toInt)
  | .startLocal register name type => do
    let name ← writeReference places name
    let type ← writeReference places type
    return 0x03 :: (register.write ++ name ++ type)
  | .startLocalExtended register name type signature => do
    let name ← writeReference places name
    let type ← writeReference places type
    let signature ← writeReference places signature
    return 0x04 :: (register.write ++ name ++ type ++ signature)
  | .endLocal register => pure (0x05 :: register.write)
  | .restartLocal register => pure (0x06 :: register.write)
  | .setPrologueEnd => pure [0x07]
  | .setEpilogueBegin => pure [0x08]
  | .setFile name => do return 0x09 :: (← writeReference places name)
  | .special opcode => pure [opcode]

/-- Reads what follows the opcode of a step. -/
def decode (opcode : UInt8) : Decoder DebugOp :=
  match opcode.toNat with
  | 0x01 => do return .advancePc (UInt32.ofNat (← Decoder.unsigned))
  | 0x02 => do return .advanceLine (Int32.ofInt (← Decoder.signed))
  | 0x03 => do
    let register ← Register.decode
    let name ← decodeReference _
    let type ← decodeReference _
    return .startLocal register name type
  | 0x04 => do
    let register ← Register.decode
    let name ← decodeReference _
    let type ← decodeReference _
    let signature ← decodeReference _
    return .startLocalExtended register name type signature
  | 0x05 => do return .endLocal (← Register.decode)
  | 0x06 => do return .restartLocal (← Register.decode)
  | 0x07 => pure .setPrologueEnd
  | 0x08 => pure .setEpilogueBegin
  | 0x09 => do return .setFile (← decodeReference _)
  | _ => pure (.special opcode)

end DebugOp

namespace DebugInfo

/-- The opcode that ends a program. -/
def endSequence : UInt8 := 0x00

/-- The length of the item. -/
def size (places : Places) (x : DebugInfo) : Size := do
  let names ← sizeOfAll (DebugOp.sizeOfReference places) x.parameterNames
  let ops ← sizeOfAll (DebugOp.size places) x.ops
  return Leb128.unsignedSize x.lineStart.toNat + Leb128.unsignedSize x.parameterNames.length +
    names + ops + 1

/-- The bytes of the item. -/
def write (places : Places) (x : DebugInfo) : Written := do
  let names ← writeAll (DebugOp.writeReference places) x.parameterNames
  let ops ← writeAll (DebugOp.write places) x.ops
  return Leb128.unsigned x.lineStart.toNat ++ Leb128.unsigned x.parameterNames.length ++ names ++
    ops ++ [endSequence]

/-- Reads steps up to the end of the program and adds them to those read before, which stand in
reverse. At most `limit` steps are read, which is no restriction when no more bytes are left. -/
def opsOnto : (limit : Nat) → List DebugOp → Decoder (List DebugOp)
  | 0, _ => do throw (.unexpectedEnd (← Decoder.position) 1)
  | limit + 1, read => do
    let opcode ← Decoder.byte
    if opcode = endSequence then return read.reverse
    else opsOnto limit ((← DebugOp.decode opcode) :: read)

/-- Reads an item. -/
def decode : Decoder DebugInfo := do
  let lineStart ← Decoder.unsigned
  let nameCount ← Decoder.unsigned
  let parameterNames ← Decoder.times nameCount (DebugOp.decodeReference .stringId)
  let ops ← opsOnto (← Decoder.remaining) []
  return { lineStart := UInt32.ofNat lineStart, parameterNames, ops }

end DebugInfo

end DexContainer
