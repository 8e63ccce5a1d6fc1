import DexContainer.Proofs.Item.Value

/-! How encoded values are measured and written. Main statements: a value takes as many bytes as
its size says, it can be written when its handles are placed, and it is written alike from two
tables of positions that agree. Each statement is shown of an annotation body whose elements have
it, and then of all values. -/

namespace DexContainer

variable {places places' : Places} {ρ : Renaming} {bs : Bytes}

namespace AnnotationBody

theorem write_eq_ok {a : AnnotationBody} : a.write places = .ok bs ↔
    ∃ n, places.position a.type = .ok n ∧
      ∃ cs, writeAll (Value.writeElement places) a.elements = .ok cs ∧
        Leb128.unsigned n ++ Leb128.unsigned a.elements.length ++ cs = bs := by
  simp [write_eq]

theorem size_eq_ok {a : AnnotationBody} {l : Nat} : a.size places = .ok l ↔
    ∃ m, sizeOfAll (Value.sizeElement places) a.elements = .ok m ∧
      ∃ n, places.position a.type = .ok n ∧
        Leb128.unsignedSize n + Leb128.unsignedSize a.elements.length + m = l := by
  simp [size_eq]

theorem each_handles {P : HandleProperty} {a : AnnotationBody} : Each P a.handles ↔
    P _ a.type ∧ ∀ e ∈ a.elements, P _ e.1 ∧ Each P e.2.handles := by
  simp [handles_eq]

end AnnotationBody

namespace Value

theorem write_array_eq_ok {vs : List Value} : (Value.array vs).write places = .ok bs ↔
    ∃ cs, DexContainer.writeAll (Value.write places) vs = .ok cs ∧
      Scalar.leadByte 0x1c 0 :: (Leb128.unsigned vs.length ++ cs) = bs := by
  simp [write_array]

theorem write_annotated_eq_ok {a : AnnotationBody} : (Value.annotated a).write places = .ok bs ↔
    ∃ cs, a.write places = .ok cs ∧ Scalar.leadByte 0x1d 0 :: cs = bs := by
  simp [write_annotated]

theorem each_array {P : HandleProperty} {vs : List Value} :
    Each P (Value.array vs).handles ↔ ∀ v ∈ vs, Each P v.handles := by
  rw [handles_array, each_flatMap]

end Value

theorem AnnotationBody.rename_id_of {a : AnnotationBody}
    (h : ∀ e ∈ a.elements, e.2.rename (fun _ h => h) = e.2) : a.rename (fun _ h => h) = a := by
  have he : a.elements.map (fun e => (e.1, e.2.rename fun _ h => h)) = a.elements := by
    refine (List.map_congr_left fun e he => ?_).trans (List.map_id _)
    rw [h e he, id]
  rw [rename_eq, he]
  cases a
  rfl

theorem Value.rename_id (v : Value) : v.rename (fun _ h => h) = v := by
  induction v using Value.form_induction with
  | scalar x => rw [rename_scalar, Scalar.rename_id]
  | array vs ih =>
    rw [rename_array, (List.map_congr_left ih).trans (List.map_id' vs)]
  | annotated a ih => rw [rename_annotated, AnnotationBody.rename_id_of ih]

theorem AnnotationBody.rename_id (a : AnnotationBody) : a.rename (fun _ h => h) = a :=
  rename_id_of fun e _ => e.2.rename_id

theorem Value.rename_congr {ρ' : Renaming} {v : Value}
    (h : Each (fun k h => ρ k h = ρ' k h) v.handles) : v.rename ρ = v.rename ρ' := by
  induction v using Value.form_induction with
  | scalar x =>
    rw [handles_scalar] at h
    rw [rename_scalar, rename_scalar, Scalar.rename_congr h]
  | array vs ih =>
    have h := each_array.1 h
    rw [rename_array, rename_array, List.map_congr_left fun v hv => ih v hv (h v hv)]
  | annotated a ih =>
    rw [handles_annotated] at h
    obtain ⟨htype, hes⟩ := AnnotationBody.each_handles.1 h
    have hes : a.elements.map (fun e => (ρ _ e.1, e.2.rename ρ)) =
        a.elements.map fun e => (ρ' _ e.1, e.2.rename ρ') :=
      List.map_congr_left fun e he => Prod.ext (hes e he).1 (ih e he (hes e he).2)
    rw [rename_annotated, rename_annotated, AnnotationBody.rename_eq, AnnotationBody.rename_eq,
      htype, hes]

theorem Value.rename_eq_self {v : Value} (h : Each (fun k x => ρ k x = x) v.handles) :
    v.rename ρ = v := (rename_congr h).trans v.rename_id

/-- A value refers to other items by index only. -/
theorem Value.each_isIndexed (v : Value) : Each (fun k _ => k.isIndexed = true) v.handles := by
  induction v using Value.form_induction with
  | scalar x =>
    rw [handles_scalar]
    exact x.each_isIndexed
  | array vs ih => exact each_array.2 ih
  | annotated a ih =>
    rw [handles_annotated]
    exact AnnotationBody.each_handles.2 ⟨rfl, fun e he => ⟨rfl, ih e he⟩⟩

/-! ### Lengths -/

theorem Value.sizeElement_of_write {e : Handle .stringId × Value}
    (he : ∀ bs, e.2.write places = .ok bs → e.2.size places = .ok bs.length)
    (h : writeElement places e = .ok bs) : sizeElement places e = .ok bs.length := by
  simp only [writeElement, bind_eq_ok, pure_eq_ok] at h
  obtain ⟨n, hn, cs, hcs, rfl⟩ := h
  simp [sizeElement, hn, he cs hcs, Leb128.length_unsigned, pure_eq]

theorem AnnotationBody.size_of_write_of {a : AnnotationBody}
    (ha : ∀ e ∈ a.elements, ∀ bs, e.2.write places = .ok bs → e.2.size places = .ok bs.length)
    (h : a.write places = .ok bs) : a.size places = .ok bs.length := by
  obtain ⟨n, hn, cs, hcs, rfl⟩ := write_eq_ok.1 h
  refine size_eq_ok.2 ⟨cs.length, ?_, n, hn, ?_⟩
  · exact sizeOfAll_of_writeAll (fun e he bs hb => Value.sizeElement_of_write (ha e he) hb) hcs
  · simp [Leb128.length_unsigned, Nat.add_assoc]

theorem Value.size_of_write {v : Value} (h : v.write places = .ok bs) :
    v.size places = .ok bs.length := by
  induction v using Value.form_induction generalizing bs with
  | scalar x =>
    rw [write_scalar] at h
    rw [size_scalar, Scalar.size_of_write h]
  | array vs ih =>
    obtain ⟨cs, hcs, rfl⟩ := write_array_eq_ok.1 h
    have := sizeOfAll_of_writeAll (fun v hv bs hb => ih v hv hb) hcs
    simp [size_array, this, Leb128.length_unsigned, pure_eq]
    omega
  | annotated a ih =>
    obtain ⟨cs, hcs, rfl⟩ := write_annotated_eq_ok.1 h
    have := AnnotationBody.size_of_write_of (fun e he bs hb => ih e he hb) hcs
    simp [size_annotated, this, pure_eq, Nat.add_comm]

theorem AnnotationBody.size_of_write {a : AnnotationBody} (h : a.write places = .ok bs) :
    a.size places = .ok bs.length :=
  size_of_write_of (fun _ _ _ hb => Value.size_of_write hb) h

/-! ### Placed handles suffice -/

theorem AnnotationBody.exists_write_of {a : AnnotationBody}
    (ha : ∀ e ∈ a.elements, ∃ bs, e.2.write places = .ok bs)
    (h : Each places.IsPlaced a.handles) : ∃ bs, a.write places = .ok bs := by
  obtain ⟨htype, hes⟩ := each_handles.1 h
  obtain ⟨n, hn⟩ := htype.exists_position
  obtain ⟨cs, hcs⟩ := exists_writeAll (w := Value.writeElement places) fun e he => by
    obtain ⟨m, hm⟩ := (hes e he).1.exists_position
    obtain ⟨bs, hb⟩ := ha e he
    exact ⟨Leb128.unsigned m ++ bs, by simp [Value.writeElement, hm, hb, pure_eq]⟩
  exact ⟨_, write_eq_ok.2 ⟨n, hn, cs, hcs, rfl⟩⟩

theorem Value.exists_write {v : Value} (h : Each places.IsPlaced v.handles) :
    ∃ bs, v.write places = .ok bs := by
  induction v using Value.form_induction with
  | scalar x =>
    rw [handles_scalar] at h
    rw [write_scalar]
    exact Scalar.exists_write h
  | array vs ih =>
    have h := each_array.1 h
    obtain ⟨cs, hcs⟩ := exists_writeAll fun v hv => ih v hv (h v hv)
    exact ⟨_, write_array_eq_ok.2 ⟨cs, hcs, rfl⟩⟩
  | annotated a ih =>
    rw [handles_annotated] at h
    have hes := (AnnotationBody.each_handles.1 h).2
    obtain ⟨cs, hcs⟩ := AnnotationBody.exists_write_of (fun e he => ih e he (hes e he).2) h
    exact ⟨_, write_annotated_eq_ok.2 ⟨cs, hcs, rfl⟩⟩

theorem AnnotationBody.exists_write {a : AnnotationBody} (h : Each places.IsPlaced a.handles) :
    ∃ bs, a.write places = .ok bs :=
  exists_write_of (fun e he => Value.exists_write ((each_handles.1 h).2 e he).2) h

theorem AnnotationBody.exists_size_of {a : AnnotationBody}
    (ha : ∀ e ∈ a.elements, ∃ n, e.2.size places = .ok n)
    (h : Each places.IsMeasurable a.handles) : ∃ n, a.size places = .ok n := by
  obtain ⟨htype, hes⟩ := each_handles.1 h
  obtain ⟨n, hn⟩ := (htype rfl (by decide)).exists_position
  obtain ⟨m, hm⟩ := exists_sizeOfAll (w := Value.sizeElement places) fun e he => by
    obtain ⟨m, hm⟩ := ((hes e he).1 rfl (by decide)).exists_position
    obtain ⟨l, hl⟩ := ha e he
    exact ⟨Leb128.unsignedSize m + l, by simp [Value.sizeElement, hm, hl, pure_eq]⟩
  exact ⟨_, size_eq_ok.2 ⟨m, hm, n, hn, rfl⟩⟩

theorem Value.exists_size {v : Value} (h : Each places.IsMeasurable v.handles) :
    ∃ n, v.size places = .ok n := by
  induction v using Value.form_induction with
  | scalar x =>
    rw [handles_scalar] at h
    rw [size_scalar]
    exact Scalar.exists_size h
  | array vs ih =>
    have h := each_array.1 h
    obtain ⟨m, hm⟩ := exists_sizeOfAll fun v hv => ih v hv (h v hv)
    exact ⟨_, by rw [size_array, hm]; rfl⟩
  | annotated a ih =>
    rw [handles_annotated] at h
    have hes := (AnnotationBody.each_handles.1 h).2
    obtain ⟨m, hm⟩ := AnnotationBody.exists_size_of (fun e he => ih e he (hes e he).2) h
    exact ⟨_, by rw [size_annotated, hm]; rfl⟩

theorem AnnotationBody.exists_size {a : AnnotationBody} (h : Each places.IsMeasurable a.handles) :
    ∃ n, a.size places = .ok n :=
  exists_size_of (fun e he => Value.exists_size ((each_handles.1 h).2 e he).2) h

/-! ### Renaming -/

theorem AnnotationBody.write_rename_of {a : AnnotationBody}
    (ha : ∀ e ∈ a.elements, (e.2.rename ρ).write places' = e.2.write places)
    (h : Each (places.Agrees places' ρ) a.handles) :
    (a.rename ρ).write places' = a.write places := by
  obtain ⟨htype, hes⟩ := each_handles.1 h
  have hes : DexContainer.writeAll (Value.writeElement places')
      (a.elements.map fun e => (ρ _ e.1, e.2.rename ρ)) =
      DexContainer.writeAll (Value.writeElement places) a.elements :=
    writeAll_map _ fun e he => by
      have hname : places'.position (ρ _ e.1) = places.position e.1 := (hes e he).1
      simp only [Value.writeElement, hname, ha e he]
  rw [Places.Agrees] at htype
  simp only [rename_eq, write_eq, hes, htype, List.length_map]

theorem Value.write_rename {v : Value} (h : Each (places.Agrees places' ρ) v.handles) :
    (v.rename ρ).write places' = v.write places := by
  induction v using Value.form_induction with
  | scalar x =>
    rw [handles_scalar] at h
    rw [rename_scalar, write_scalar, write_scalar, Scalar.write_rename h]
  | array vs ih =>
    have h := each_array.1 h
    have hvs := writeAll_map (Value.rename ρ)
      fun v hv => ih v hv (h v hv)
    rw [rename_array, write_array, write_array, hvs, List.length_map]
  | annotated a ih =>
    rw [handles_annotated] at h
    have hes := (AnnotationBody.each_handles.1 h).2
    have ha := AnnotationBody.write_rename_of (fun e he => ih e he (hes e he).2) h
    rw [rename_annotated, write_annotated, write_annotated, ha]

theorem AnnotationBody.write_rename {a : AnnotationBody}
    (h : Each (places.Agrees places' ρ) a.handles) :
    (a.rename ρ).write places' = a.write places :=
  write_rename_of (fun e he => Value.write_rename ((each_handles.1 h).2 e he).2) h

theorem AnnotationBody.size_rename_of {a : AnnotationBody}
    (ha : ∀ e ∈ a.elements, (e.2.rename ρ).size places' = e.2.size places)
    (h : Each (places.Measures places' ρ) a.handles) :
    (a.rename ρ).size places' = a.size places := by
  obtain ⟨htype, hes⟩ := each_handles.1 h
  have hes : sizeOfAll (Value.sizeElement places')
      (a.elements.map fun e => (ρ _ e.1, e.2.rename ρ)) =
      sizeOfAll (Value.sizeElement places) a.elements :=
    sizeOfAll_map _ fun e he => by
      have hname : places'.position (ρ _ e.1) = places.position e.1 := (hes e he).1 rfl
      simp only [Value.sizeElement, hname, ha e he]
  have htype : places'.position (ρ _ a.type) = places.position a.type := htype rfl
  simp only [rename_eq, size_eq, hes, htype, List.length_map]

theorem Value.size_rename {v : Value} (h : Each (places.Measures places' ρ) v.handles) :
    (v.rename ρ).size places' = v.size places := by
  induction v using Value.form_induction with
  | scalar x =>
    rw [handles_scalar] at h
    rw [rename_scalar, size_scalar, size_scalar, Scalar.size_rename h]
  | array vs ih =>
    have h := each_array.1 h
    have hvs := sizeOfAll_map (Value.rename ρ)
      fun v hv => ih v hv (h v hv)
    rw [rename_array, size_array, size_array, hvs, List.length_map]
  | annotated a ih =>
    rw [handles_annotated] at h
    have hes := (AnnotationBody.each_handles.1 h).2
    have ha := AnnotationBody.size_rename_of (fun e he => ih e he (hes e he).2) h
    rw [rename_annotated, size_annotated, size_annotated, ha]

theorem AnnotationBody.size_rename {a : AnnotationBody}
    (h : Each (places.Measures places' ρ) a.handles) :
    (a.rename ρ).size places' = a.size places :=
  size_rename_of (fun e he => Value.size_rename ((each_handles.1 h).2 e he).2) h

end DexContainer
