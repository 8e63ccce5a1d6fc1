import DexContainer.Proofs.Content

/-! What the length of an item takes from the offsets of code. Only the members of a class name
code, and they hold its offset as a number of variable length. Main statements:
`size_congr_of_ne_classData`, any other item is as long wherever the code stands, and
`ClassData.exists_size_eq`, the length of class data is a fixed part and the lengths of the code
offsets in it. -/

namespace DexContainer

variable {places places' : Places} {k : Kind}

/-- A handle of any other kind than code. -/
def NotCode : HandleProperty := fun k _ => k ≠ .code

/-- The items that keep their numbers are looked up alike in two tables. -/
def Places.NumbersAlike (places places' : Places) : Prop :=
  ∀ (k : Kind) (h : Handle k), k.isNumbered = true → places'.position? k h = places.position? k h

theorem Places.NumbersAlike.position (h : places.NumbersAlike places') (x : Handle k)
    (hk : k.isNumbered = true) : places'.position x = places.position x := by
  rw [Places.position, Places.position, h k x hk]

theorem Places.NumbersAlike.measures (h : places.NumbersAlike places') (x : Handle k)
    (hk : NotCode k x) : places.Measures places' (fun _ h => h) k x := by
  intro hmeasured
  refine h.position x ?_
  revert hk hmeasured
  rw [NotCode]
  cases k <;> decide

/-! ### Items without code offsets -/

theorem Scalar.each_notCode (x : Scalar) : Each NotCode x.handles := by
  cases x <;> simp [Scalar.handles, NotCode]

theorem Value.each_notCode (v : Value) : Each NotCode v.handles := by
  induction v using Value.form_induction with
  | scalar x => exact x.each_notCode
  | array vs ih =>
    rw [Value.handles, Value.handlesAll_eq, each_flatMap]
    exact ih
  | annotated a ih =>
    obtain ⟨type, es⟩ := a
    rw [Value.handles, AnnotationBody.handles, Value.handlesElements_eq, each_cons, each_flatMap]
    refine ⟨by simp [NotCode], fun e he => each_cons.2 ⟨by simp [NotCode], ih e he⟩⟩

theorem AnnotationBody.each_notCode (a : AnnotationBody) : Each NotCode a.handles :=
  Value.each_notCode (.annotated a)

theorem DebugOp.each_notCode (x : DebugOp) : Each NotCode x.handles := by
  cases x <;> simp [DebugOp.handles, NotCode]

/-- Only the members of a class name code. -/
theorem Content.each_notCode (hk : k ≠ .classData) (x : Content k) :
    Each NotCode (Content.handles k x) := by
  cases k with
  | classData => exact absurd rfl hk
  | debugInfo =>
    refine each_append.2 ⟨each_flatMap.2 fun o _ => by simp [NotCode], ?_⟩
    exact each_flatMap.2 fun op _ => op.each_notCode
  | annotationItem => exact AnnotationBody.each_notCode _
  | encodedArray => exact each_flatMap.2 fun v _ => v.each_notCode
  | code =>
    refine each_append.2 ⟨by simp [NotCode], each_flatMap.2 fun catcher _ => each_map.2 ?_⟩
    simp [NotCode]
  | _ =>
    simp [Content.handles, NotCode, StringId.handles, TypeId.handles, ProtoId.handles,
      FieldId.handles, MethodId.handles, ClassDef.handles, TypeList.handles,
      AnnotationSetRefList.handles, AnnotationSet.handles, AnnotationsDirectory.handles,
      AnnotationsDirectory.handlesOfRow]

theorem Content.size_congr_of_ne_classData (hk : k ≠ .classData) (h : places.NumbersAlike places')
    (x : Content k) : Content.size places' k x = Content.size places k x := by
  have hx := (Content.each_notCode hk x).mono fun j y hy => h.measures y hy
  have hsize := Content.size_rename hx
  rwa [Content.rename_id] at hsize

/-! ### Code offsets -/

namespace ClassData

/-- The length of the offset of a method body. -/
def codeWidth (places : Places) (h : Handle .code) : Nat := codeSize places (some h)

/-- The method bodies that some methods name, in order. -/
def codesOf (ms : List EncodedMethod) : List (Handle .code) := ms.filterMap (·.code)

/-- The method bodies that the item names, in order. -/
def codes (x : ClassData) : List (Handle .code) :=
  codesOf x.directMethods ++ codesOf x.virtualMethods

/-- The lengths of some code offsets. -/
def codeWidths (places : Places) (hs : List (Handle .code)) : Nat := (hs.map (codeWidth places)).sum

theorem codeWidths_append (places : Places) (hs hs' : List (Handle .code)) :
    codeWidths places (hs ++ hs') = codeWidths places hs + codeWidths places hs' := by
  simp [codeWidths]

theorem codeWidths_flatMap {α : Type} (places : Places) (xs : List α)
    (f : α → List (Handle .code)) :
    codeWidths places (xs.flatMap f) = (xs.map fun x => codeWidths places (f x)).sum := by
  induction xs with
  | nil => rfl
  | cons x xs ih => rw [List.flatMap_cons, codeWidths_append, ih, List.map_cons, List.sum_cons]

theorem sizeOfFields_congr (h : places.NumbersAlike places') (previous : Nat)
    (fs : List EncodedField) :
    sizeOfFields places' previous fs = sizeOfFields places previous fs := by
  induction fs generalizing previous with
  | nil => rfl
  | cons f fs ih => simp only [sizeOfFields, h.position f.field rfl, ih]

theorem exists_sizeOfMethods_eq {previous n : Nat} {ms : List EncodedMethod}
    (hms : sizeOfMethods places previous ms = .ok n) : ∃ rest, ∀ places',
      places.NumbersAlike places' →
        sizeOfMethods places' previous ms = .ok (rest + codeWidths places' (codesOf ms)) := by
  induction ms generalizing previous n with
  | nil => exact ⟨0, fun _ _ => rfl⟩
  | cons m ms ih =>
    simp only [sizeOfMethods, bind_eq_ok, pure_eq_ok] at hms
    obtain ⟨index, hindex, n, hms, -⟩ := hms
    obtain ⟨rest, hrest⟩ := ih hms
    refine ⟨Leb128.unsignedSize (difference index previous) +
      Leb128.unsignedSize m.accessFlags.toNat + (if m.code = none then 1 else 0) + rest,
      fun places' hplaces => ?_⟩
    simp only [sizeOfMethods, hplaces.position m.method rfl, hindex, hrest places' hplaces,
      ok_bind, pure_eq]
    congr 1
    cases hcode : m.code with
    | none =>
      simp only [codesOf, List.filterMap_cons, hcode, codeSize, if_true]
      omega
    | some h =>
      simp only [codesOf, List.filterMap_cons, hcode, codeWidths, codeWidth, List.map_cons,
        List.sum_cons, reduceCtorEq, if_false]
      omega

/-- The length of the item is a fixed part and the lengths of the code offsets in it. -/
theorem exists_size_eq {x : ClassData} {n : Nat} (hx : x.size places = .ok n) : ∃ rest, ∀ places',
    places.NumbersAlike places' → x.size places' = .ok (rest + codeWidths places' x.codes) := by
  simp only [size, bind_eq_ok, pure_eq_ok] at hx
  obtain ⟨staticFields, hstatic, instanceFields, hinstance, _, hdirect, _, hvirtual, -⟩ := hx
  obtain ⟨direct, hdirect⟩ := exists_sizeOfMethods_eq hdirect
  obtain ⟨virtual, hvirtual⟩ := exists_sizeOfMethods_eq hvirtual
  refine ⟨Leb128.unsignedSize x.staticFields.length +
    Leb128.unsignedSize x.instanceFields.length + Leb128.unsignedSize x.directMethods.length +
    Leb128.unsignedSize x.virtualMethods.length + staticFields + instanceFields + direct + virtual,
    fun places' h => ?_⟩
  simp only [size, sizeOfFields_congr h, hstatic, hinstance, hdirect places' h, hvirtual places' h,
    ok_bind, pure_eq, codes, codeWidths_append]
  congr 1
  omega

end ClassData

end DexContainer
