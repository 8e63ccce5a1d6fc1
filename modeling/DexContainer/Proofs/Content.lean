import DexContainer.Content
import DexContainer.Proofs.Item.AnnotationGroups
import DexContainer.Proofs.Item.Annotations
import DexContainer.Proofs.Item.ClassData
import DexContainer.Proofs.Item.ClassDef
import DexContainer.Proofs.Item.Code.Accepting
import DexContainer.Proofs.Item.DebugInfo
import DexContainer.Proofs.Item.Header
import DexContainer.Proofs.Item.Identifiers
import DexContainer.Proofs.Item.MapList
import DexContainer.Proofs.Item.StringData
import DexContainer.Proofs.Item.TypeList

/-! The laws that items of every kind obey. Main statements: `size_of_write`, an item takes as many
bytes as its size says; `exists_write`, an item whose handles are placed can be written;
`write_rename`, it is written alike from two tables of positions that agree on its handles;
`reads`, what was written is read back with its handles renamed; and `yields`, what is read refers
only to what was met, and can be written and read back. -/

namespace DexContainer.Content

variable {places places' : Places} {ρ : Renaming} {keeps : Bool} {p : Nat} {bs : Bytes} {k : Kind}
  {x : Content k}

/-- The handles of an item. -/
def handles : (k : Kind) → Content k → List AnyHandle
  | .header, _ => []
  | .stringId, x => StringId.handles x
  | .typeId, x => TypeId.handles x
  | .protoId, x => ProtoId.handles x
  | .fieldId, x => FieldId.handles x
  | .methodId, x => MethodId.handles x
  | .classDef, x => ClassDef.handles x
  | .mapList, _ => []
  | .typeList, x => TypeList.handles x
  | .annotationSetRefList, x => AnnotationSetRefList.handles x
  | .annotationSet, x => AnnotationSet.handles x
  | .classData, x => ClassData.handles x
  | .code, x => Code.handles x
  | .stringData, _ => []
  | .debugInfo, x => DebugInfo.handles x
  | .annotationItem, x => AnnotationItem.handles x
  | .encodedArray, x => EncodedArray.handles x
  | .annotationsDirectory, x => AnnotationsDirectory.handles x

/-- An item with its handles renamed. -/
def rename (ρ : Renaming) : (k : Kind) → Content k → Content k
  | .header, x => x
  | .stringId, x => StringId.rename ρ x
  | .typeId, x => TypeId.rename ρ x
  | .protoId, x => ProtoId.rename ρ x
  | .fieldId, x => FieldId.rename ρ x
  | .methodId, x => MethodId.rename ρ x
  | .classDef, x => ClassDef.rename ρ x
  | .mapList, x => x
  | .typeList, x => TypeList.rename ρ x
  | .annotationSetRefList, x => AnnotationSetRefList.rename ρ x
  | .annotationSet, x => AnnotationSet.rename ρ x
  | .classData, x => ClassData.rename ρ x
  | .code, x => Code.rename ρ x
  | .stringData, x => x
  | .debugInfo, x => DebugInfo.rename ρ x
  | .annotationItem, x => AnnotationItem.rename ρ x
  | .encodedArray, x => EncodedArray.rename ρ x
  | .annotationsDirectory, x => AnnotationsDirectory.rename ρ x

/-- An item as a reader sees it that keeps signed registers or does not: what the file does not hold
is gone. -/
def asRead (keeps : Bool) : (k : Kind) → Content k → Content k
  | .mapList, x => MapList.asRead x
  | .code, x => Code.asRead x
  | .debugInfo, x => DebugInfo.asRead keeps x
  | _, x => x

/-- An item that fits into the fields of its encoding. -/
def IsEncodable : (k : Kind) → Content k → Prop
  | .header, x => Header.IsEncodable x
  | .fieldId, x => (FieldId.owner x).id < 2 ^ 16 ∧ (FieldId.type x).id < 2 ^ 16
  | .methodId, x => (MethodId.owner x).id < 2 ^ 16 ∧ (MethodId.proto x).id < 2 ^ 16
  | .mapList, x => MapList.IsEncodable x
  | .typeList, x => ∀ t ∈ TypeList.types x, t.id < 2 ^ 16
  | .code, x => Code.Fits x
  | .stringData, x => StringData.IsEncodable x
  | .debugInfo, x => DebugInfo.IsEncodable x
  | .annotationItem, x => AnnotationItem.IsEncodable x
  | .encodedArray, x => EncodedArray.IsEncodable x
  | _, _ => True

/-! ### Writing -/

/-- An item takes as many bytes as its size says. -/
theorem size_of_write (h : write places k x = .ok bs) : size places k x = .ok bs.length := by
  cases k with
  | header => cases h; exact congrArg Except.ok (Header.length_write places x).symm
  | stringId => exact congrArg Except.ok (StringId.length_of_write h).symm
  | typeId => exact congrArg Except.ok (TypeId.length_of_write h).symm
  | protoId => exact congrArg Except.ok (ProtoId.length_of_write h).symm
  | fieldId => exact congrArg Except.ok (FieldId.length_of_write h).symm
  | methodId => exact congrArg Except.ok (MethodId.length_of_write h).symm
  | classDef => exact congrArg Except.ok (ClassDef.length_of_write h).symm
  | mapList => cases h; exact congrArg Except.ok (MapList.length_write x).symm
  | typeList => exact congrArg Except.ok (TypeList.length_of_write h)
  | annotationSetRefList => exact congrArg Except.ok (AnnotationSetRefList.length_of_write h)
  | annotationSet => exact congrArg Except.ok (AnnotationSet.length_of_write h)
  | classData => exact ClassData.size_of_write h
  | code => exact Code.size_of_write h
  | stringData => cases h; exact congrArg Except.ok (StringData.length_write x).symm
  | debugInfo => exact DebugInfo.size_of_write h
  | annotationItem => exact AnnotationItem.size_of_write h
  | encodedArray => exact EncodedArray.size_of_write h
  | annotationsDirectory => exact congrArg Except.ok (AnnotationsDirectory.length_of_write h)

theorem exists_write (hx : Each places.IsPlaced (handles k x)) (hc : check k x = .ok ()) :
    ∃ bs, write places k x = .ok bs := by
  cases k with
  | header => exact ⟨_, rfl⟩
  | stringId => exact StringId.exists_write hx
  | typeId => exact TypeId.exists_write hx
  | protoId => exact ProtoId.exists_write hx
  | fieldId => exact FieldId.exists_write hx
  | methodId => exact MethodId.exists_write hx
  | classDef => exact ClassDef.exists_write hx
  | mapList => exact ⟨_, rfl⟩
  | typeList => exact TypeList.exists_write hx
  | annotationSetRefList => exact AnnotationSetRefList.exists_write hx
  | annotationSet => exact AnnotationSet.exists_write hx
  | classData => exact ClassData.exists_write hx
  | code => exact Code.exists_write hx hc
  | stringData => exact ⟨_, rfl⟩
  | debugInfo => exact DebugInfo.exists_write hx
  | annotationItem => exact AnnotationItem.exists_write hx
  | encodedArray => exact EncodedArray.exists_write hx
  | annotationsDirectory => exact AnnotationsDirectory.exists_write hx

theorem exists_size (hx : Each places.IsMeasurable (handles k x)) :
    ∃ n, size places k x = .ok n := by
  cases k with
  | classData => exact ClassData.exists_size hx
  | code => exact Code.exists_size hx
  | debugInfo => exact DebugInfo.exists_size hx
  | annotationItem => exact AnnotationItem.exists_size hx
  | encodedArray => exact EncodedArray.exists_size hx
  | _ => exact ⟨_, rfl⟩

/-- The entries of an index table are of one length. -/
theorem size_of_entrySize? {n : Nat} (hk : k.entrySize? = some n) : size places k x = .ok n := by
  cases k <;> cases hk <;> rfl

/-- An item of an indexed section is as long wherever the others stand. -/
theorem size_of_isIndexed (hk : k.isIndexed = true) : size places' k x = size places k x := by
  cases k <;> first | rfl | cases hk

/-- No item is empty. -/
theorem size_pos {n : Nat} (h : size places k x = .ok n) : 0 < n := by
  cases k with
  | classData =>
    simp only [size, ClassData.size, bind_eq_ok, pure_eq_ok] at h
    obtain ⟨_, -, _, -, _, -, _, -, rfl⟩ := h
    have := Leb128.unsignedSize_pos (ClassData.staticFields x).length
    omega
  | code =>
    simp only [size, Code.size] at h
    split at h
    · cases h
      omega
    · obtain ⟨_, -, h⟩ := bind_eq_ok.1 h
      cases h
      omega
  | debugInfo =>
    simp only [size, DebugInfo.size, bind_eq_ok, pure_eq_ok] at h
    obtain ⟨_, -, _, -, rfl⟩ := h
    omega
  | annotationItem =>
    obtain ⟨_, -, h⟩ := bind_eq_ok.1 h
    cases h
    omega
  | encodedArray =>
    obtain ⟨_, -, h⟩ := bind_eq_ok.1 h
    cases h
    have := Leb128.unsignedSize_pos (EncodedArray.values x).length
    omega
  | mapList => cases h; exact Nat.add_pos_left (by decide) _
  | typeList => cases h; exact Nat.add_pos_left (by decide) _
  | annotationSetRefList => cases h; exact Nat.add_pos_left (by decide) _
  | annotationSet => cases h; exact Nat.add_pos_left (by decide) _
  | stringData => cases h; exact Nat.succ_pos _
  | annotationsDirectory => cases h; exact Nat.add_pos_left (by decide) _
  | _ => cases h; decide
/-! ### Renaming -/

theorem rename_id (k : Kind) (x : Content k) : rename (fun _ h => h) k x = x := by
  cases k with
  | header => rfl
  | stringId => exact StringId.rename_id x
  | typeId => exact TypeId.rename_id x
  | protoId => exact ProtoId.rename_id x
  | fieldId => exact FieldId.rename_id x
  | methodId => exact MethodId.rename_id x
  | classDef => exact ClassDef.rename_id x
  | mapList => rfl
  | typeList => exact TypeList.rename_id x
  | annotationSetRefList => exact AnnotationSetRefList.rename_id x
  | annotationSet => exact AnnotationSet.rename_id x
  | classData => exact ClassData.rename_id x
  | code => exact Code.rename_id x
  | stringData => rfl
  | debugInfo => exact DebugInfo.rename_id x
  | annotationItem => exact AnnotationItem.rename_id x
  | encodedArray => exact EncodedArray.rename_id x
  | annotationsDirectory => exact AnnotationsDirectory.rename_id x

/-- The bytes of an item depend on the positions of its handles only, those of the header on the
tables. -/
theorem write_rename (hx : Each (places.Agrees places' ρ) (handles k x))
    (ht : k = .header → places'.table = places.table) :
    write places' k (rename ρ k x) = write places k x := by
  cases k with
  | header => simp only [write, rename, Header.write, Header.tableWords, ht rfl]
  | stringId => exact StringId.write_rename hx
  | typeId => exact TypeId.write_rename hx
  | protoId => exact ProtoId.write_rename hx
  | fieldId => exact FieldId.write_rename hx
  | methodId => exact MethodId.write_rename hx
  | classDef => exact ClassDef.write_rename hx
  | mapList => rfl
  | typeList => exact TypeList.write_rename hx
  | annotationSetRefList => exact AnnotationSetRefList.write_rename hx
  | annotationSet => exact AnnotationSet.write_rename hx
  | classData => exact ClassData.write_rename hx
  | code => exact Code.write_rename hx
  | stringData => rfl
  | debugInfo => exact DebugInfo.write_rename hx
  | annotationItem => exact AnnotationItem.write_rename hx
  | encodedArray => exact EncodedArray.write_rename hx
  | annotationsDirectory => exact AnnotationsDirectory.write_rename hx

/-- The length of an item depends on the positions of few kinds. -/
theorem size_rename (hx : Each (places.Measures places' ρ) (handles k x)) :
    size places' k (rename ρ k x) = size places k x := by
  cases k with
  | classData => exact ClassData.size_rename hx
  | code => exact Code.size_rename hx
  | debugInfo => exact DebugInfo.size_rename hx
  | annotationItem => exact AnnotationItem.size_rename hx
  | encodedArray => exact EncodedArray.size_rename hx
  | typeList => simp [size, rename, TypeList.size, TypeList.rename]
  | annotationSetRefList =>
    simp [size, rename, AnnotationSetRefList.size, AnnotationSetRefList.rename]
  | annotationSet => simp [size, rename, AnnotationSet.size, AnnotationSet.rename]
  | annotationsDirectory =>
    simp [size, rename, AnnotationsDirectory.size, AnnotationsDirectory.rename]
  | _ => rfl

/-! ### Reading -/

theorem each_handles_asRead {P : HandleProperty} (keeps : Bool) (hx : Each P (handles k x)) :
    Each P (handles k (asRead keeps k x)) := by
  cases k with
  | code => exact Code.each_handles_asRead hx
  | debugInfo =>
    have h : handles .debugInfo (asRead keeps .debugInfo x) = handles .debugInfo x :=
      DebugInfo.handles_asRead keeps x
    rwa [h]
  | _ => exact hx

/-- What a reader does not see does not depend on the handles. -/
theorem asRead_rename (ρ : Renaming) (keeps : Bool) (x : Content k) :
    asRead keeps k (rename ρ k x) = rename ρ k (asRead keeps k x) := by
  cases k with
  | code =>
    simp only [asRead, rename, Code.asRead, Code.rename, Code.mk.injEq, true_and]
    split <;> simp_all
  | debugInfo =>
    simp only [asRead, rename, DebugInfo.asRead, DebugInfo.rename, List.map_map]
    congr 1
    exact List.map_congr_left fun op _ => (DebugOp.rename_asRead ρ keeps op).symm
  | _ => rfl

theorem write_asRead (places : Places) (hx : IsEncodable k x) :
    write places k (asRead true k x) = write places k x := by
  cases k with
  | mapList =>
    have hrows (es : List MapEntry) :
        (es.map MapEntry.asRead).flatMap MapEntry.write = es.flatMap MapEntry.write := by
      rw [List.flatMap_map]
      rfl
    simp only [write, asRead, MapList.write, MapList.asRead, hrows, List.length_map]
  | code => exact Code.write_asRead x
  | debugInfo => exact DebugInfo.write_asRead hx
  | _ => rfl

theorem size_asRead (places : Places) (hx : IsEncodable k x) :
    size places k (asRead true k x) = size places k x := by
  cases k with
  | mapList => simp [size, asRead, MapList.size, MapList.asRead]
  | code => exact Code.size_asRead x
  | debugInfo => exact DebugInfo.size_asRead hx
  | _ => rfl

/-- What was written from a table of positions is read back. -/
theorem reads (hp : places.Bounded) (hx : IsEncodable k x) (hc : check k x = .ok ())
    (hn : Each places.Numbers (handles k x)) (h : write places k x = .ok bs)
    (hlen : bs.length < 2 ^ 32) :
    Reads places keeps (fun _ => True) p (decode k) bs
      fun ρ => asRead keeps k (rename ρ k x) := by
  cases k with
  | header => cases h; exact Header.reads hx
  | stringId => exact StringId.reads hp h
  | typeId => exact TypeId.reads hp h
  | protoId => exact ProtoId.reads hp h
  | fieldId =>
    simp only [handles, FieldId.handles, each_cons] at hn
    exact FieldId.reads hp ⟨hn.1.fitsHalf rfl hx.1, hn.2.1.fitsHalf rfl hx.2⟩ h
  | methodId =>
    simp only [handles, MethodId.handles, each_cons] at hn
    exact MethodId.reads hp ⟨hn.1.fitsHalf rfl hx.1, hn.2.1.fitsHalf rfl hx.2⟩ h
  | classDef => exact ClassDef.reads hp h
  | mapList =>
    cases h
    exact MapList.reads hx (MapList.length_write x ▸ hlen)
  | typeList =>
    simp only [handles, TypeList.handles, each_map] at hn
    exact TypeList.reads (fun t ht => (hn t ht).fitsHalf rfl (hx t ht)) h hlen
  | annotationSetRefList => exact AnnotationSetRefList.reads hp h hlen
  | annotationSet => exact AnnotationSet.reads hp h hlen
  | classData => exact ClassData.reads hp h hlen
  | code =>
    exact Code.reads (hp.each_fitsWord _) (fun _ _ hh => hp.ne_zero _ _ 0 hh rfl rfl) hc
      (Code.Fits.isEncodable hx hn) h hlen
  | stringData => cases h; exact StringData.reads hx hlen
  | debugInfo => exact DebugInfo.reads hp hx h hlen
  | annotationItem => exact AnnotationItem.reads hp hx h hlen
  | encodedArray => exact EncodedArray.reads hp hx h hlen
  | annotationsDirectory => exact AnnotationsDirectory.reads hp h hlen

/-- The item refers only to what was met, and can be written and read back. -/
structure IsAccepted (keeps : Bool) (r : References) (k : Kind) (x : Content k) : Prop where
  holds : Each r.Holds (handles k x)
  check : check k x = .ok ()
  encodable : IsEncodable k x
  asRead : asRead keeps k x = x

theorem yields (keeps : Bool) (k : Kind) :
    Yields keeps (fun _ => True) 1 (decode k) fun r x => IsAccepted keeps r k x := by
  cases k with
  | header =>
    exact Header.yields.mono (by decide) fun _ _ _ h => ⟨each_nil, rfl, h, rfl⟩
  | stringId => exact StringId.yields.mono (by decide) fun _ _ _ h => ⟨h, rfl, trivial, rfl⟩
  | typeId => exact TypeId.yields.mono (by decide) fun _ _ _ h => ⟨h, rfl, trivial, rfl⟩
  | protoId => exact ProtoId.yields.mono (by decide) fun _ _ _ h => ⟨h, rfl, trivial, rfl⟩
  | fieldId => exact FieldId.yields.mono (by decide) fun _ _ _ h => ⟨h.1, rfl, h.2, rfl⟩
  | methodId => exact MethodId.yields.mono (by decide) fun _ _ _ h => ⟨h.1, rfl, h.2, rfl⟩
  | classDef => exact ClassDef.yields.mono (by decide) fun _ _ _ h => ⟨h, rfl, trivial, rfl⟩
  | mapList =>
    exact MapList.yields.mono (by decide) fun _ _ _ h => ⟨each_nil, rfl, h.1, h.2⟩
  | typeList => exact TypeList.yields.mono (by decide) fun _ _ _ h => ⟨h.1, rfl, h.2, rfl⟩
  | annotationSetRefList =>
    exact AnnotationSetRefList.yields.mono (by decide) fun _ _ _ h => ⟨h, rfl, trivial, rfl⟩
  | annotationSet =>
    exact AnnotationSet.yields.mono (by decide) fun _ _ _ h => ⟨h, rfl, trivial, rfl⟩
  | classData => exact ClassData.yields.mono (by decide) fun _ _ _ h => ⟨h, rfl, trivial, rfl⟩
  | code =>
    exact Code.yields.mono (by decide) fun _ _ _ h => ⟨h.1, h.2.1, h.2.2.2, h.2.2.1⟩
  | stringData =>
    exact StringData.yields.mono (by decide) fun _ _ _ h => ⟨each_nil, rfl, h, rfl⟩
  | debugInfo =>
    exact DebugInfo.yields.mono (by decide) fun _ _ _ h => ⟨h.1, rfl, h.2.1, h.2.2⟩
  | annotationItem =>
    exact AnnotationItem.yields.mono (by decide) fun _ _ _ h => ⟨h.1, rfl, h.2, rfl⟩
  | encodedArray =>
    exact EncodedArray.yields.mono (by decide) fun _ _ _ h => ⟨h.1, rfl, h.2, rfl⟩
  | annotationsDirectory =>
    exact AnnotationsDirectory.yields.mono (by decide) fun _ _ _ h => ⟨h, rfl, trivial, rfl⟩

end DexContainer.Content
