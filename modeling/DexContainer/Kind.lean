/-! The catalog of item kinds. A container is made of sections, one for each kind, and the map
directory names a section by the type code of its kind. The header, the six identifier tables and
the map are indexed: their items are referred to by number. The items of every other kind are
referred to by the offset at which they start. Main statement: `ofTypeCode?_typeCode`, the type code
determines the kind. -/

namespace DexContainer

/-- The kinds of item that a container holds. -/
inductive Kind
  | header
  | stringId
  | typeId
  | protoId
  | fieldId
  | methodId
  | classDef
  | mapList
  | typeList
  | annotationSetRefList
  | annotationSet
  | classData
  | code
  | stringData
  | debugInfo
  | annotationItem
  | encodedArray
  | annotationsDirectory
deriving DecidableEq, Hashable, Repr, Inhabited

namespace Kind

/-- The type code that the map directory stores. -/
def typeCode : Kind → Nat
  | .header => 0x0000
  | .stringId => 0x0001
  | .typeId => 0x0002
  | .protoId => 0x0003
  | .fieldId => 0x0004
  | .methodId => 0x0005
  | .classDef => 0x0006
  | .mapList => 0x1000
  | .typeList => 0x1001
  | .annotationSetRefList => 0x1002
  | .annotationSet => 0x1003
  | .classData => 0x2000
  | .code => 0x2001
  | .stringData => 0x2002
  | .debugInfo => 0x2003
  | .annotationItem => 0x2004
  | .encodedArray => 0x2005
  | .annotationsDirectory => 0x2006

/-- The name that messages and reports use. -/
def name : Kind → String
  | .header => "header_item"
  | .stringId => "string_id_item"
  | .typeId => "type_id_item"
  | .protoId => "proto_id_item"
  | .fieldId => "field_id_item"
  | .methodId => "method_id_item"
  | .classDef => "class_def_item"
  | .mapList => "map_list"
  | .typeList => "type_list"
  | .annotationSetRefList => "annotation_set_ref_list"
  | .annotationSet => "annotation_set_item"
  | .classData => "class_data_item"
  | .code => "code_item"
  | .stringData => "string_data_item"
  | .debugInfo => "debug_info_item"
  | .annotationItem => "annotation_item"
  | .encodedArray => "encoded_array_item"
  | .annotationsDirectory => "annotations_directory_item"

/-- The key that structured reports use. -/
def key : Kind → String
  | .header => "header"
  | .stringId => "string_id"
  | .typeId => "type_id"
  | .protoId => "proto_id"
  | .fieldId => "field_id"
  | .methodId => "method_id"
  | .classDef => "class_def"
  | .mapList => "map_list"
  | .typeList => "type_list"
  | .annotationSetRefList => "annotation_set_ref_list"
  | .annotationSet => "annotation_set"
  | .classData => "class_data"
  | .code => "code"
  | .stringData => "string_data"
  | .debugInfo => "debug_info"
  | .annotationItem => "annotation"
  | .encodedArray => "encoded_array"
  | .annotationsDirectory => "annotations_directory"

/-- The index tables, in the order in which they follow the header. -/
def tables : List Kind := [.stringId, .typeId, .protoId, .fieldId, .methodId, .classDef]

/-- The data sections, in the order in which they follow the tables. Code comes last, so that
every reference to an offset that is not a code offset points backwards. -/
def dataOrder : List Kind :=
  [.typeList, .annotationSetRefList, .annotationSet, .annotationsDirectory, .stringData,
    .annotationItem, .encodedArray, .classData, .debugInfo, .code]

/-- The order in which the sections of an image are decoded. -/
def readOrder : List Kind :=
  [.header, .stringId, .typeId, .protoId, .fieldId, .methodId, .classDef, .stringData,
    .encodedArray, .annotationItem, .annotationSet, .annotationSetRefList, .annotationsDirectory,
    .typeList, .code, .classData, .debugInfo, .mapList]

/-- The kind with a given type code. -/
def ofTypeCode? (code : Nat) : Option Kind := readOrder.find? (·.typeCode == code)

/-- Items of an indexed kind are referred to by their number in the section. -/
def isIndexed : Kind → Bool
  | .header | .stringId | .typeId | .protoId | .fieldId | .methodId | .classDef | .mapList => true
  | _ => false

/-- The header and the map occur exactly once in every container. -/
def isSingleton : Kind → Bool
  | .header | .mapList => true
  | _ => false

/-- The width of the entries of an index table. -/
def entrySize? : Kind → Option Nat
  | .stringId | .typeId => some 4
  | .protoId => some 12
  | .fieldId | .methodId => some 8
  | .classDef => some 32
  | _ => none

/-- Every item starts at a multiple of its kind's alignment. -/
def alignment : Kind → Nat
  | .stringData | .debugInfo | .annotationItem | .encodedArray | .classData => 1
  | _ => 4

/-- The kinds whose sections have a canonical order. -/
def isSortable : Kind → Bool
  | .stringData | .typeList | .annotationItem => true
  | _ => false

theorem mem_readOrder (k : Kind) : k ∈ readOrder := by cases k <;> decide

theorem readOrder_nodup : readOrder.Nodup := by decide

theorem typeCode_lt (k : Kind) : k.typeCode < 65536 := by cases k <;> decide

@[simp] theorem ofTypeCode?_typeCode (k : Kind) : ofTypeCode? k.typeCode = some k := by
  cases k <;> rfl

theorem ne_header {k : Kind} (hk : k.isSingleton = false) : k ≠ .header := by
  rintro rfl
  cases hk

theorem ne_mapList {k : Kind} (hk : k.isSingleton = false) : k ≠ .mapList := by
  rintro rfl
  cases hk

theorem isIndexed_of_isSingleton {k : Kind} (hk : k.isSingleton = true) :
    k.isIndexed = true := by
  cases k <;> first | rfl | cases hk

/-- The header and the map are of one item, and other indexed sections of entries of one width. -/
theorem isSingleton_or_entrySize? {k : Kind} (hk : k.isIndexed = true) :
    k.isSingleton = true ∨ ∃ width, k.entrySize? = some width ∧ k.alignment ∣ width := by
  cases k <;>
    first
    | exact .inl rfl
    | exact .inr ⟨_, rfl, by decide⟩
    | exact absurd hk (by decide)

theorem alignment_eq (k : Kind) : k.alignment = 1 ∨ k.alignment = 4 := by cases k <;> decide

end Kind

/-- A reference to an item by its place in the section of its kind. It does not change when the
section is reordered or laid out again. -/
structure Handle (k : Kind) where
  id : Nat
deriving DecidableEq, Hashable, Repr

end DexContainer
