import DexContainer.Item.Value

/-! Annotations and what groups them: sets of annotations, lists of sets for the parameters of a
method, and the directory of all annotations of a class and its members. -/

namespace DexContainer

/-- An annotation with its visibility. -/
structure AnnotationItem where
  visibility : UInt8
  body : AnnotationBody
deriving DecidableEq, Hashable, Repr

/-- A set of annotations. -/
structure AnnotationSet where
  members : List (Handle .annotationItem)
deriving DecidableEq, Hashable, Repr

/-- The annotation sets of the parameters of a method. -/
structure AnnotationSetRefList where
  sets : List (Option (Handle .annotationSet))
deriving DecidableEq, Hashable, Repr

/-- The annotations of a class, its fields, its methods and their parameters. -/
structure AnnotationsDirectory where
  onClass : Option (Handle .annotationSet)
  fields : List (Handle .fieldId × Handle .annotationSet)
  methods : List (Handle .methodId × Handle .annotationSet)
  parameters : List (Handle .methodId × Handle .annotationSetRefList)
deriving DecidableEq, Hashable, Repr

namespace AnnotationItem

/-- The length of the item. -/
def size (places : Places) (x : AnnotationItem) : Size := do return 1 + (← x.body.size places)

/-- The bytes of the item. -/
def write (places : Places) (x : AnnotationItem) : Written := do
  return x.visibility :: (← x.body.write places)

/-- Reads an item. -/
def decode : Decoder AnnotationItem := do
  let visibility ← Decoder.byte
  return { visibility, body := ← AnnotationBody.decode }

end AnnotationItem

namespace AnnotationSet

/-- The length of the set. -/
def size (x : AnnotationSet) : Nat := 4 + 4 * x.members.length

/-- The bytes of the set. -/
def write (places : Places) (x : AnnotationSet) : Written := do
  return Word.full x.members.length ++
    (← writeAll (fun h => do return Word.full (← places.position h)) x.members)

/-- Reads a set. -/
def decode : Decoder AnnotationSet := do
  let count ← Decoder.word
  return ⟨← Decoder.times count (do Decoder.offset .annotationItem (← Decoder.word))⟩

end AnnotationSet

namespace AnnotationSetRefList

/-- The length of the list. -/
def size (x : AnnotationSetRefList) : Nat := 4 + 4 * x.sets.length

/-- The bytes of the list. -/
def write (places : Places) (x : AnnotationSetRefList) : Written := do
  return Word.full x.sets.length ++
    (← writeAll (fun h => do return Word.full (← places.optionalOffset h)) x.sets)

/-- Reads a list. -/
def decode : Decoder AnnotationSetRefList := do
  let count ← Decoder.word
  return ⟨← Decoder.times count (do Decoder.optionalOffset .annotationSet (← Decoder.word))⟩

end AnnotationSetRefList

namespace AnnotationsDirectory

/-- The length of the directory. -/
def size (x : AnnotationsDirectory) : Nat :=
  16 + 8 * (x.fields.length + x.methods.length + x.parameters.length)

variable {j k : Kind}

/-- The bytes of a row: the index of a member and the offset of what is attached to it. -/
def writeRow (places : Places) (row : Handle j × Handle k) : Written := do
  let member ← places.position row.1
  let attached ← places.position row.2
  return Word.full member ++ Word.full attached

/-- Reads a row. -/
def decodeRow (j k : Kind) : Decoder (Handle j × Handle k) := do
  let member ← Decoder.index j (← Decoder.word)
  let attached ← Decoder.offset k (← Decoder.word)
  return (member, attached)

/-- The bytes of the directory. -/
def write (places : Places) (x : AnnotationsDirectory) : Written := do
  let onClass ← places.optionalOffset x.onClass
  let fields ← writeAll (writeRow places) x.fields
  let methods ← writeAll (writeRow places) x.methods
  let parameters ← writeAll (writeRow places) x.parameters
  return Word.full onClass ++ Word.full x.fields.length ++ Word.full x.methods.length ++
    Word.full x.parameters.length ++ fields ++ methods ++ parameters

/-- Reads a directory. -/
def decode : Decoder AnnotationsDirectory := do
  let onClass ← Decoder.optionalOffset .annotationSet (← Decoder.word)
  let fieldCount ← Decoder.word
  let methodCount ← Decoder.word
  let parameterCount ← Decoder.word
  let fields ← Decoder.times fieldCount (decodeRow _ _)
  let methods ← Decoder.times methodCount (decodeRow _ _)
  let parameters ← Decoder.times parameterCount (decodeRow _ _)
  return { onClass, fields, methods, parameters }

end AnnotationsDirectory

end DexContainer
