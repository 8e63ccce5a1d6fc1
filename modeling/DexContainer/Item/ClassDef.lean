import DexContainer.Decoding.Source
import DexContainer.Item.Places

/-! Class definitions: eight words, of which six are references that may be absent. An absent
index is all ones, an absent offset is zero. -/

namespace DexContainer

/-- The definition of a class. -/
structure ClassDef where
  type : Handle .typeId
  accessFlags : UInt32
  superclass : Option (Handle .typeId) := none
  interfaces : Option (Handle .typeList) := none
  sourceFile : Option (Handle .stringId) := none
  annotations : Option (Handle .annotationsDirectory) := none
  classData : Option (Handle .classData) := none
  staticValues : Option (Handle .encodedArray) := none
deriving DecidableEq, Hashable, Repr

namespace ClassDef

/-- The bytes of the definition. -/
def write (places : Places) (x : ClassDef) : Written := do
  let type ← places.position x.type
  let superclass ← places.optionalIndex x.superclass
  let interfaces ← places.optionalOffset x.interfaces
  let sourceFile ← places.optionalIndex x.sourceFile
  let annotations ← places.optionalOffset x.annotations
  let classData ← places.optionalOffset x.classData
  let staticValues ← places.optionalOffset x.staticValues
  return Word.full type ++ Word.full x.accessFlags.toNat ++ Word.full superclass ++
    Word.full interfaces ++ Word.full sourceFile ++ Word.full annotations ++
    Word.full classData ++ Word.full staticValues

/-- Reads a definition. -/
def decode : Decoder ClassDef := do
  let type ← Decoder.index .typeId (← Decoder.word)
  let accessFlags ← Decoder.word
  let superclass ← Decoder.optionalIndex .typeId (← Decoder.word)
  let interfaces ← Decoder.optionalOffset .typeList (← Decoder.word)
  let sourceFile ← Decoder.optionalIndex .stringId (← Decoder.word)
  let annotations ← Decoder.optionalOffset .annotationsDirectory (← Decoder.word)
  let classData ← Decoder.optionalOffset .classData (← Decoder.word)
  let staticValues ← Decoder.optionalOffset .encodedArray (← Decoder.word)
  return {
    type, accessFlags := UInt32.ofNat accessFlags, superclass, interfaces, sourceFile,
    annotations, classData, staticValues }

end ClassDef

end DexContainer
