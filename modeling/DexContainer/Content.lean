import DexContainer.Item.Header
import DexContainer.Item.MapList
import DexContainer.Item.Identifiers
import DexContainer.Item.ClassDef
import DexContainer.Item.TypeList
import DexContainer.Item.StringData
import DexContainer.Item.Annotations
import DexContainer.Item.ClassData
import DexContainer.Item.Code
import DexContainer.Item.DebugInfo

/-! What the items of each kind are, and how an item of any kind is measured, written, read and
checked. -/

namespace DexContainer

/-- What an item of a kind holds. -/
abbrev Content : Kind → Type
  | .header => Header
  | .stringId => StringId
  | .typeId => TypeId
  | .protoId => ProtoId
  | .fieldId => FieldId
  | .methodId => MethodId
  | .classDef => ClassDef
  | .mapList => MapList
  | .typeList => TypeList
  | .annotationSetRefList => AnnotationSetRefList
  | .annotationSet => AnnotationSet
  | .classData => ClassData
  | .code => Code
  | .stringData => StringData
  | .debugInfo => DebugInfo
  | .annotationItem => AnnotationItem
  | .encodedArray => EncodedArray
  | .annotationsDirectory => AnnotationsDirectory

namespace Content

instance decidableEq : (k : Kind) → DecidableEq (Content k)
  | .header => inferInstanceAs (DecidableEq Header)
  | .stringId => inferInstanceAs (DecidableEq StringId)
  | .typeId => inferInstanceAs (DecidableEq TypeId)
  | .protoId => inferInstanceAs (DecidableEq ProtoId)
  | .fieldId => inferInstanceAs (DecidableEq FieldId)
  | .methodId => inferInstanceAs (DecidableEq MethodId)
  | .classDef => inferInstanceAs (DecidableEq ClassDef)
  | .mapList => inferInstanceAs (DecidableEq MapList)
  | .typeList => inferInstanceAs (DecidableEq TypeList)
  | .annotationSetRefList => inferInstanceAs (DecidableEq AnnotationSetRefList)
  | .annotationSet => inferInstanceAs (DecidableEq AnnotationSet)
  | .classData => inferInstanceAs (DecidableEq ClassData)
  | .code => inferInstanceAs (DecidableEq Code)
  | .stringData => inferInstanceAs (DecidableEq StringData)
  | .debugInfo => inferInstanceAs (DecidableEq DebugInfo)
  | .annotationItem => inferInstanceAs (DecidableEq AnnotationItem)
  | .encodedArray => inferInstanceAs (DecidableEq EncodedArray)
  | .annotationsDirectory => inferInstanceAs (DecidableEq AnnotationsDirectory)

instance hashable : (k : Kind) → Hashable (Content k)
  | .header => inferInstanceAs (Hashable Header)
  | .stringId => inferInstanceAs (Hashable StringId)
  | .typeId => inferInstanceAs (Hashable TypeId)
  | .protoId => inferInstanceAs (Hashable ProtoId)
  | .fieldId => inferInstanceAs (Hashable FieldId)
  | .methodId => inferInstanceAs (Hashable MethodId)
  | .classDef => inferInstanceAs (Hashable ClassDef)
  | .mapList => inferInstanceAs (Hashable MapList)
  | .typeList => inferInstanceAs (Hashable TypeList)
  | .annotationSetRefList => inferInstanceAs (Hashable AnnotationSetRefList)
  | .annotationSet => inferInstanceAs (Hashable AnnotationSet)
  | .classData => inferInstanceAs (Hashable ClassData)
  | .code => inferInstanceAs (Hashable Code)
  | .stringData => inferInstanceAs (Hashable StringData)
  | .debugInfo => inferInstanceAs (Hashable DebugInfo)
  | .annotationItem => inferInstanceAs (Hashable AnnotationItem)
  | .encodedArray => inferInstanceAs (Hashable EncodedArray)
  | .annotationsDirectory => inferInstanceAs (Hashable AnnotationsDirectory)

/-- The length of an item. -/
def size (places : Places) : (k : Kind) → Content k → Size
  | .header, _ => pure Header.length
  | .stringId, _ => pure 4
  | .typeId, _ => pure 4
  | .protoId, _ => pure 12
  | .fieldId, _ => pure 8
  | .methodId, _ => pure 8
  | .classDef, _ => pure 32
  | .mapList, x => pure (MapList.size x)
  | .typeList, x => pure (TypeList.size x)
  | .annotationSetRefList, x => pure (AnnotationSetRefList.size x)
  | .annotationSet, x => pure (AnnotationSet.size x)
  | .classData, x => ClassData.size places x
  | .code, x => Code.size places x
  | .stringData, x => pure (StringData.size x)
  | .debugInfo, x => DebugInfo.size places x
  | .annotationItem, x => AnnotationItem.size places x
  | .encodedArray, x => EncodedArray.size places x
  | .annotationsDirectory, x => pure (AnnotationsDirectory.size x)

/-- The bytes of an item. -/
def write (places : Places) : (k : Kind) → Content k → Written
  | .header, x => pure (Header.write places x)
  | .stringId, x => StringId.write places x
  | .typeId, x => TypeId.write places x
  | .protoId, x => ProtoId.write places x
  | .fieldId, x => FieldId.write places x
  | .methodId, x => MethodId.write places x
  | .classDef, x => ClassDef.write places x
  | .mapList, x => pure (MapList.write x)
  | .typeList, x => TypeList.write places x
  | .annotationSetRefList, x => AnnotationSetRefList.write places x
  | .annotationSet, x => AnnotationSet.write places x
  | .classData, x => ClassData.write places x
  | .code, x => Code.write places x
  | .stringData, x => pure (StringData.write x)
  | .debugInfo, x => DebugInfo.write places x
  | .annotationItem, x => AnnotationItem.write places x
  | .encodedArray, x => EncodedArray.write places x
  | .annotationsDirectory, x => AnnotationsDirectory.write places x

/-- Reads an item. -/
def decode : (k : Kind) → Decoder (Content k)
  | .header => Header.decode
  | .stringId => StringId.decode
  | .typeId => TypeId.decode
  | .protoId => ProtoId.decode
  | .fieldId => FieldId.decode
  | .methodId => MethodId.decode
  | .classDef => ClassDef.decode
  | .mapList => MapList.decode
  | .typeList => TypeList.decode
  | .annotationSetRefList => AnnotationSetRefList.decode
  | .annotationSet => AnnotationSet.decode
  | .classData => ClassData.decode
  | .code => Code.decode
  | .stringData => StringData.decode
  | .debugInfo => DebugInfo.decode
  | .annotationItem => AnnotationItem.decode
  | .encodedArray => EncodedArray.decode
  | .annotationsDirectory => AnnotationsDirectory.decode

/-- What has no encoding is refused; only method bodies can hold such content. -/
def check : (k : Kind) → Content k → Except Violation Unit
  | .code, x => Code.check x
  | _, _ => pure ()

end Content

end DexContainer
