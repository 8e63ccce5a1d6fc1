import DexContainer.Item.Annotations
import DexContainer.Proofs.Item.Value.Reading

/-! Arrays of encoded values, annotations and what groups annotations, as they are written and
read. -/

namespace DexContainer

variable {places places' : Places} {ρ : Renaming} {keeps : Bool} {p : Nat} {bs : Bytes}

namespace EncodedArray

variable {x : EncodedArray}

/-- The handles of the array. -/
def handles (x : EncodedArray) : List AnyHandle := x.values.flatMap Value.handles

/-- The array with its handles renamed. -/
def rename (ρ : Renaming) (x : EncodedArray) : EncodedArray := ⟨x.values.map (Value.rename ρ)⟩

/-- No value is too deep for a reader. -/
def IsEncodable (x : EncodedArray) : Prop := ∀ v ∈ x.values, v.levels ≤ Value.maxLevels

theorem rename_id (x : EncodedArray) : x.rename (fun _ h => h) = x := by
  rw [rename, (List.map_congr_left fun v _ => v.rename_id).trans (List.map_id' x.values)]

theorem write_eq_ok : x.write places = .ok bs ↔
    ∃ cs, writeAll (Value.write places) x.values = .ok cs ∧
      Leb128.unsigned x.values.length ++ cs = bs := by
  simp [write, Value.writeAll_eq]

theorem size_eq (x : EncodedArray) : x.size places = do
    return Leb128.unsignedSize x.values.length +
      (← sizeOfAll (Value.size places) x.values) := by
  rw [size, Value.sizeAll_eq]

theorem size_of_write (h : x.write places = .ok bs) : x.size places = .ok bs.length := by
  obtain ⟨cs, hcs, rfl⟩ := write_eq_ok.1 h
  have := sizeOfAll_of_writeAll (fun v _ bs hb => Value.size_of_write hb) hcs
  simp [size_eq, this, Leb128.length_unsigned, pure_eq]

theorem exists_write (h : Each places.IsPlaced x.handles) : ∃ bs, x.write places = .ok bs := by
  rw [handles, each_flatMap] at h
  obtain ⟨cs, hcs⟩ := exists_writeAll fun v hv => Value.exists_write (h v hv)
  exact ⟨_, write_eq_ok.2 ⟨cs, hcs, rfl⟩⟩

theorem exists_size (h : Each places.IsMeasurable x.handles) : ∃ n, x.size places = .ok n := by
  rw [handles, each_flatMap] at h
  obtain ⟨m, hm⟩ := exists_sizeOfAll fun v hv => Value.exists_size (h v hv)
  exact ⟨_, by rw [size_eq, hm]; rfl⟩

theorem write_rename (h : Each (places.Agrees places' ρ) x.handles) :
    (x.rename ρ).write places' = x.write places := by
  rw [handles, each_flatMap] at h
  have hvs := writeAll_map (Value.rename ρ)
    fun v hv => Value.write_rename (h v hv)
  rw [write, write, Value.writeAll_eq, Value.writeAll_eq, rename, hvs, List.length_map]

theorem size_rename (h : Each (places.Measures places' ρ) x.handles) :
    (x.rename ρ).size places' = x.size places := by
  rw [handles, each_flatMap] at h
  have hvs := sizeOfAll_map (Value.rename ρ)
    fun v hv => Value.size_rename (h v hv)
  rw [size_eq, size_eq, rename, hvs, List.length_map]

theorem reads (hp : places.Bounded) (hx : x.IsEncodable) (h : x.write places = .ok bs)
    (hb : bs.length < 2 ^ 32) :
    Reads places keeps (fun _ => True) p decode bs fun ρ => x.rename ρ := by
  obtain ⟨cs, hcs, rfl⟩ := write_eq_ok.1 h
  rw [List.length_append] at hb
  have hcount : x.values.length < 2 ^ 32 := by
    have := length_le_of_writeAll (fun v _ bs hb => Value.length_pos_of_write hb) hcs
    omega
  refine Reads.map EncodedArray.mk ?_
  refine (Reads.unsigned hcount).bind_const ?_
  exact Reads.writeAll hcs fun v hv ds hds hle p =>
    Value.reads (hp.each_fitsWord _) (hx v hv) hds (by omega)

theorem yields : Yields keeps (fun _ => True) 1 decode
    fun r x => Each r.Holds x.handles ∧ x.IsEncodable := by
  refine (Value.yields_all (Value.yields _)).bind fun vs _ => Yields.pure fun r hr => ?_
  rw [handles, each_flatMap]
  exact ⟨fun v hv => (hr.2 v hv).1, fun v hv => (hr.2 v hv).2⟩

end EncodedArray

namespace AnnotationItem

variable {x : AnnotationItem}

/-- The handles of the annotation. -/
def handles (x : AnnotationItem) : List AnyHandle := x.body.handles

/-- The annotation with its handles renamed. -/
def rename (ρ : Renaming) (x : AnnotationItem) : AnnotationItem :=
  { x with body := x.body.rename ρ }

/-- No value of the annotation is too deep for a reader. -/
def IsEncodable (x : AnnotationItem) : Prop := x.body.levels ≤ Value.maxLevels

theorem rename_id (x : AnnotationItem) : x.rename (fun _ h => h) = x := by
  rw [rename, x.body.rename_id]

theorem write_eq_ok : x.write places = .ok bs ↔
    ∃ cs, x.body.write places = .ok cs ∧ x.visibility :: cs = bs := by
  simp [write]

theorem size_of_write (h : x.write places = .ok bs) : x.size places = .ok bs.length := by
  obtain ⟨cs, hcs, rfl⟩ := write_eq_ok.1 h
  simp [size, AnnotationBody.size_of_write hcs, pure_eq, Nat.add_comm]

theorem exists_write (h : Each places.IsPlaced x.handles) : ∃ bs, x.write places = .ok bs := by
  obtain ⟨cs, hcs⟩ := AnnotationBody.exists_write h
  exact ⟨_, write_eq_ok.2 ⟨cs, hcs, rfl⟩⟩

theorem exists_size (h : Each places.IsMeasurable x.handles) : ∃ n, x.size places = .ok n := by
  obtain ⟨m, hm⟩ := AnnotationBody.exists_size h
  exact ⟨_, by rw [size, hm]; rfl⟩

theorem write_rename (h : Each (places.Agrees places' ρ) x.handles) :
    (x.rename ρ).write places' = x.write places := by
  simp only [write, rename, AnnotationBody.write_rename h]

theorem size_rename (h : Each (places.Measures places' ρ) x.handles) :
    (x.rename ρ).size places' = x.size places := by
  simp only [size, rename, AnnotationBody.size_rename h]

theorem reads (hp : places.Bounded) (hx : x.IsEncodable) (h : x.write places = .ok bs)
    (hb : bs.length < 2 ^ 32) :
    Reads places keeps (fun _ => True) p decode bs fun ρ => x.rename ρ := by
  obtain ⟨cs, hcs, rfl⟩ := write_eq_ok.1 h
  rw [List.length_cons] at hb
  refine (Reads.byte _).bind_const ?_
  exact Reads.map (AnnotationItem.mk x.visibility)
    (AnnotationBody.reads (hp.each_fitsWord _) hx hcs (by omega))

theorem yields : Yields keeps (fun _ => True) 1 decode
    fun r x => Each r.Holds x.handles ∧ x.IsEncodable := by
  refine Yields.byte.bind fun visibility _ => ?_
  refine (AnnotationBody.yields.given_of fun _ _ => trivial).bind_tail fun body _ => ?_
  exact Yields.pure fun r hr => hr.2

end AnnotationItem

end DexContainer
