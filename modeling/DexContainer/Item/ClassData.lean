import DexContainer.Decoding.Source
import DexContainer.Item.Places

/-! The members that a class defines. Each list holds the index of its first member and after that
only the differences between neighbours, modulo 2^32. The code offset of a method is a number of
variable length, so the length of this item depends on where the code stands; before the code is
laid out it is taken to need the most bytes. -/

namespace DexContainer

/-- A field that a class defines. -/
structure EncodedField where
  field : Handle .fieldId
  accessFlags : UInt32
deriving DecidableEq, Hashable, Repr

/-- A method that a class defines. -/
structure EncodedMethod where
  method : Handle .methodId
  accessFlags : UInt32
  code : Option (Handle .code)
deriving DecidableEq, Hashable, Repr

/-- The fields and methods that a class defines. -/
structure ClassData where
  staticFields : List EncodedField
  instanceFields : List EncodedField
  directMethods : List EncodedMethod
  virtualMethods : List EncodedMethod
deriving DecidableEq, Hashable, Repr

namespace ClassData

/-- The step from one index to another, modulo 2^32. -/
def difference (index previous : Nat) : Nat := (index + (2 ^ 32 - previous % 2 ^ 32)) % 2 ^ 32

/-- The length that a code offset is given before the code is laid out. -/
def unplacedOffsetSize : Nat := 5

/-- The length of a code offset. -/
def codeSize (places : Places) : Option (Handle .code) → Nat
  | none => 1
  | some h =>
    match places.position? .code h with
    | none => unplacedOffsetSize
    | some n => Leb128.unsignedSize n

/-- The length of a list of fields after a field with the index `previous`. -/
def sizeOfFields (places : Places) (previous : Nat) : List EncodedField → Size
  | [] => pure 0
  | f :: fs => do
    let index ← places.position f.field
    return Leb128.unsignedSize (difference index previous) +
      Leb128.unsignedSize f.accessFlags.toNat + (← sizeOfFields places index fs)

/-- The length of a list of methods after a method with the index `previous`. -/
def sizeOfMethods (places : Places) (previous : Nat) : List EncodedMethod → Size
  | [] => pure 0
  | m :: ms => do
    let index ← places.position m.method
    return Leb128.unsignedSize (difference index previous) +
      Leb128.unsignedSize m.accessFlags.toNat + codeSize places m.code +
      (← sizeOfMethods places index ms)

/-- The length of the item. -/
def size (places : Places) (x : ClassData) : Size := do
  let staticFields ← sizeOfFields places 0 x.staticFields
  let instanceFields ← sizeOfFields places 0 x.instanceFields
  let directMethods ← sizeOfMethods places 0 x.directMethods
  let virtualMethods ← sizeOfMethods places 0 x.virtualMethods
  return Leb128.unsignedSize x.staticFields.length +
    Leb128.unsignedSize x.instanceFields.length + Leb128.unsignedSize x.directMethods.length +
    Leb128.unsignedSize x.virtualMethods.length + staticFields + instanceFields + directMethods +
    virtualMethods

/-- The bytes of a list of fields after a field with the index `previous`. -/
def writeFields (places : Places) (previous : Nat) : List EncodedField → Written
  | [] => pure []
  | f :: fs => do
    let index ← places.position f.field
    return Leb128.unsigned (difference index previous) ++ Leb128.unsigned f.accessFlags.toNat ++
      (← writeFields places index fs)

/-- The bytes of a list of methods after a method with the index `previous`. -/
def writeMethods (places : Places) (previous : Nat) : List EncodedMethod → Written
  | [] => pure []
  | m :: ms => do
    let index ← places.position m.method
    let code ← places.optionalOffset m.code
    return Leb128.unsigned (difference index previous) ++ Leb128.unsigned m.accessFlags.toNat ++
      Leb128.unsigned code ++ (← writeMethods places index ms)

/-- The bytes of the item. -/
def write (places : Places) (x : ClassData) : Written := do
  let staticFields ← writeFields places 0 x.staticFields
  let instanceFields ← writeFields places 0 x.instanceFields
  let directMethods ← writeMethods places 0 x.directMethods
  let virtualMethods ← writeMethods places 0 x.virtualMethods
  return Leb128.unsigned x.staticFields.length ++ Leb128.unsigned x.instanceFields.length ++
    Leb128.unsigned x.directMethods.length ++ Leb128.unsigned x.virtualMethods.length ++
    staticFields ++ instanceFields ++ directMethods ++ virtualMethods

/-- Reads fields after a field with the index `previous` and adds them to those read before, which
stand in reverse. -/
def fieldsOnto : (count previous : Nat) → List EncodedField → Decoder (List EncodedField)
  | 0, _, read => pure read.reverse
  | count + 1, previous, read => do
    let index := (previous + (← Decoder.unsigned)) % 2 ^ 32
    let field ← Decoder.index .fieldId index
    let accessFlags ← Decoder.unsigned
    fieldsOnto count index ({ field, accessFlags := UInt32.ofNat accessFlags } :: read)

/-- Reads methods after a method with the index `previous` and adds them to those read before,
which stand in reverse. -/
def methodsOnto : (count previous : Nat) → List EncodedMethod → Decoder (List EncodedMethod)
  | 0, _, read => pure read.reverse
  | count + 1, previous, read => do
    let index := (previous + (← Decoder.unsigned)) % 2 ^ 32
    let accessFlags ← Decoder.unsigned
    let code ← Decoder.optionalOffset .code (← Decoder.unsigned)
    let method ← Decoder.index .methodId index
    methodsOnto count index ({ method, accessFlags := UInt32.ofNat accessFlags, code } :: read)

/-- Reads an item: the four lengths come before the four lists. -/
def decode : Decoder ClassData := do
  let staticCount ← Decoder.unsigned
  let instanceCount ← Decoder.unsigned
  let directCount ← Decoder.unsigned
  let virtualCount ← Decoder.unsigned
  let staticFields ← fieldsOnto staticCount 0 []
  let instanceFields ← fieldsOnto instanceCount 0 []
  let directMethods ← methodsOnto directCount 0 []
  let virtualMethods ← methodsOnto virtualCount 0 []
  return { staticFields, instanceFields, directMethods, virtualMethods }

end ClassData

end DexContainer
