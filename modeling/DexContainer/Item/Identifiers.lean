import DexContainer.Decoding.Source
import DexContainer.Item.Places

/-! The entries of the identifier tables: strings, types, prototypes, fields and methods. All
have a fixed width, and the references of fields and methods to types and prototypes are 16-bit
indices. -/

namespace DexContainer

/-- A string, by its data. -/
structure StringId where
  data : Handle .stringData
deriving DecidableEq, Hashable, Repr

/-- A type, by its descriptor. -/
structure TypeId where
  descriptor : Handle .stringId
deriving DecidableEq, Hashable, Repr

/-- A method prototype. -/
structure ProtoId where
  shorty : Handle .stringId
  returnType : Handle .typeId
  parameters : Option (Handle .typeList)
deriving DecidableEq, Hashable, Repr

/-- A field. -/
structure FieldId where
  owner : Handle .typeId
  type : Handle .typeId
  name : Handle .stringId
deriving DecidableEq, Hashable, Repr

/-- A method. -/
structure MethodId where
  owner : Handle .typeId
  proto : Handle .protoId
  name : Handle .stringId
deriving DecidableEq, Hashable, Repr

namespace StringId

/-- The bytes of the entry. -/
def write (places : Places) (x : StringId) : Written := do
  return Word.full (← places.position x.data)

/-- Reads an entry. -/
def decode : Decoder StringId := do
  return ⟨← Decoder.offset .stringData (← Decoder.word)⟩

end StringId

namespace TypeId

/-- The bytes of the entry. -/
def write (places : Places) (x : TypeId) : Written := do
  return Word.full (← places.position x.descriptor)

/-- Reads an entry. -/
def decode : Decoder TypeId := do
  return ⟨← Decoder.index .stringId (← Decoder.word)⟩

end TypeId

namespace ProtoId

/-- The bytes of the entry. -/
def write (places : Places) (x : ProtoId) : Written := do
  let shorty ← places.position x.shorty
  let returnType ← places.position x.returnType
  let parameters ← places.optionalOffset x.parameters
  return Word.full shorty ++ Word.full returnType ++ Word.full parameters

/-- Reads an entry. -/
def decode : Decoder ProtoId := do
  let shorty ← Decoder.index .stringId (← Decoder.word)
  let returnType ← Decoder.index .typeId (← Decoder.word)
  let parameters ← Decoder.optionalOffset .typeList (← Decoder.word)
  return { shorty, returnType, parameters }

end ProtoId

namespace FieldId

/-- The bytes of the entry. -/
def write (places : Places) (x : FieldId) : Written := do
  let owner ← places.position x.owner
  let type ← places.position x.type
  let name ← places.position x.name
  return Word.half owner ++ Word.half type ++ Word.full name

/-- Reads an entry. -/
def decode : Decoder FieldId := do
  let owner ← Decoder.index .typeId (← Decoder.half)
  let type ← Decoder.index .typeId (← Decoder.half)
  let name ← Decoder.index .stringId (← Decoder.word)
  return { owner, type, name }

end FieldId

namespace MethodId

/-- The bytes of the entry. -/
def write (places : Places) (x : MethodId) : Written := do
  let owner ← places.position x.owner
  let proto ← places.position x.proto
  let name ← places.position x.name
  return Word.half owner ++ Word.half proto ++ Word.full name

/-- Reads an entry. -/
def decode : Decoder MethodId := do
  let owner ← Decoder.index .typeId (← Decoder.half)
  let proto ← Decoder.index .protoId (← Decoder.half)
  let name ← Decoder.index .stringId (← Decoder.word)
  return { owner, proto, name }

end MethodId

end DexContainer
