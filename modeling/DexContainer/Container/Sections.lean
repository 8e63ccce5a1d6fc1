import DexContainer.Section

/-! The sections of a container, one for each kind. Main statements: what is stored for a kind is
found for that kind, and nothing else changes. -/

namespace DexContainer

/-- One section for each kind. -/
structure Sections where
  header : Section .header := {}
  stringIds : Section .stringId := {}
  typeIds : Section .typeId := {}
  protoIds : Section .protoId := {}
  fieldIds : Section .fieldId := {}
  methodIds : Section .methodId := {}
  classDefs : Section .classDef := {}
  map : Section .mapList := {}
  typeLists : Section .typeList := {}
  annotationSetRefLists : Section .annotationSetRefList := {}
  annotationSets : Section .annotationSet := {}
  classData : Section .classData := {}
  code : Section .code := {}
  stringData : Section .stringData := {}
  debugInfo : Section .debugInfo := {}
  annotations : Section .annotationItem := {}
  encodedArrays : Section .encodedArray := {}
  annotationsDirectories : Section .annotationsDirectory := {}

namespace Sections

/-- The section of a kind. -/
def get (s : Sections) : (k : Kind) → Section k
  | .header => s.header
  | .stringId => s.stringIds
  | .typeId => s.typeIds
  | .protoId => s.protoIds
  | .fieldId => s.fieldIds
  | .methodId => s.methodIds
  | .classDef => s.classDefs
  | .mapList => s.map
  | .typeList => s.typeLists
  | .annotationSetRefList => s.annotationSetRefLists
  | .annotationSet => s.annotationSets
  | .classData => s.classData
  | .code => s.code
  | .stringData => s.stringData
  | .debugInfo => s.debugInfo
  | .annotationItem => s.annotations
  | .encodedArray => s.encodedArrays
  | .annotationsDirectory => s.annotationsDirectories

/-- Changes the section of a kind. -/
def modify : Sections → (k : Kind) → (Section k → Section k) → Sections
  | ⟨s0, s1, s2, s3, s4, s5, s6, s7, s8, s9, s10, s11, s12, s13, s14, s15, s16, s17⟩, k, f =>
    match k with
    | .header =>
      ⟨f s0, s1, s2, s3, s4, s5, s6, s7, s8, s9, s10, s11, s12, s13, s14, s15, s16, s17⟩
    | .stringId =>
      ⟨s0, f s1, s2, s3, s4, s5, s6, s7, s8, s9, s10, s11, s12, s13, s14, s15, s16, s17⟩
    | .typeId =>
      ⟨s0, s1, f s2, s3, s4, s5, s6, s7, s8, s9, s10, s11, s12, s13, s14, s15, s16, s17⟩
    | .protoId =>
      ⟨s0, s1, s2, f s3, s4, s5, s6, s7, s8, s9, s10, s11, s12, s13, s14, s15, s16, s17⟩
    | .fieldId =>
      ⟨s0, s1, s2, s3, f s4, s5, s6, s7, s8, s9, s10, s11, s12, s13, s14, s15, s16, s17⟩
    | .methodId =>
      ⟨s0, s1, s2, s3, s4, f s5, s6, s7, s8, s9, s10, s11, s12, s13, s14, s15, s16, s17⟩
    | .classDef =>
      ⟨s0, s1, s2, s3, s4, s5, f s6, s7, s8, s9, s10, s11, s12, s13, s14, s15, s16, s17⟩
    | .mapList =>
      ⟨s0, s1, s2, s3, s4, s5, s6, f s7, s8, s9, s10, s11, s12, s13, s14, s15, s16, s17⟩
    | .typeList =>
      ⟨s0, s1, s2, s3, s4, s5, s6, s7, f s8, s9, s10, s11, s12, s13, s14, s15, s16, s17⟩
    | .annotationSetRefList =>
      ⟨s0, s1, s2, s3, s4, s5, s6, s7, s8, f s9, s10, s11, s12, s13, s14, s15, s16, s17⟩
    | .annotationSet =>
      ⟨s0, s1, s2, s3, s4, s5, s6, s7, s8, s9, f s10, s11, s12, s13, s14, s15, s16, s17⟩
    | .classData =>
      ⟨s0, s1, s2, s3, s4, s5, s6, s7, s8, s9, s10, f s11, s12, s13, s14, s15, s16, s17⟩
    | .code =>
      ⟨s0, s1, s2, s3, s4, s5, s6, s7, s8, s9, s10, s11, f s12, s13, s14, s15, s16, s17⟩
    | .stringData =>
      ⟨s0, s1, s2, s3, s4, s5, s6, s7, s8, s9, s10, s11, s12, f s13, s14, s15, s16, s17⟩
    | .debugInfo =>
      ⟨s0, s1, s2, s3, s4, s5, s6, s7, s8, s9, s10, s11, s12, s13, f s14, s15, s16, s17⟩
    | .annotationItem =>
      ⟨s0, s1, s2, s3, s4, s5, s6, s7, s8, s9, s10, s11, s12, s13, s14, f s15, s16, s17⟩
    | .encodedArray =>
      ⟨s0, s1, s2, s3, s4, s5, s6, s7, s8, s9, s10, s11, s12, s13, s14, s15, f s16, s17⟩
    | .annotationsDirectory =>
      ⟨s0, s1, s2, s3, s4, s5, s6, s7, s8, s9, s10, s11, s12, s13, s14, s15, s16, f s17⟩

@[simp] theorem get_modify_self (s : Sections) (k : Kind) (f : Section k → Section k) :
    (s.modify k f).get k = f (s.get k) := by
  cases k <;> rfl

theorem get_modify_of_ne (s : Sections) {j k : Kind} (f : Section k → Section k) (h : j ≠ k) :
    (s.modify k f).get j = s.get j := by
  cases k <;> cases j <;> first | rfl | exact absurd rfl h

end Sections

end DexContainer
