import DexContainer.Item.ClassDef
import DexContainer.Proofs.Reads.Primitives
import DexContainer.Proofs.Yields

/-! Class definitions as they are written and read. -/

namespace DexContainer.ClassDef

variable {places places' : Places} {ρ : Renaming} {keeps : Bool} {p : Nat} {bs : Bytes}
  {x : ClassDef}

/-- The handles of the definition. -/
def handles (x : ClassDef) : List AnyHandle :=
  x.type.any :: x.superclass.toList.map Handle.any ++ x.interfaces.toList.map Handle.any ++
    x.sourceFile.toList.map Handle.any ++ x.annotations.toList.map Handle.any ++
    x.classData.toList.map Handle.any ++ x.staticValues.toList.map Handle.any

/-- The definition with its handles renamed. -/
def rename (ρ : Renaming) (x : ClassDef) : ClassDef where
  type := ρ _ x.type
  accessFlags := x.accessFlags
  superclass := x.superclass.map (ρ _)
  interfaces := x.interfaces.map (ρ _)
  sourceFile := x.sourceFile.map (ρ _)
  annotations := x.annotations.map (ρ _)
  classData := x.classData.map (ρ _)
  staticValues := x.staticValues.map (ρ _)

theorem rename_id (x : ClassDef) : x.rename (fun _ h => h) = x := by
  simp [rename]

theorem each_handles {P : HandleProperty} : Each P x.handles ↔
    P _ x.type ∧ (∀ h ∈ x.superclass, P _ h) ∧ (∀ h ∈ x.interfaces, P _ h) ∧
      (∀ h ∈ x.sourceFile, P _ h) ∧ (∀ h ∈ x.annotations, P _ h) ∧ (∀ h ∈ x.classData, P _ h) ∧
      ∀ h ∈ x.staticValues, P _ h := by
  simp [handles]

theorem write_eq_ok : x.write places = .ok bs ↔
    ∃ type, places.position x.type = .ok type ∧
    ∃ superclass, places.optionalIndex x.superclass = .ok superclass ∧
    ∃ interfaces, places.optionalOffset x.interfaces = .ok interfaces ∧
    ∃ sourceFile, places.optionalIndex x.sourceFile = .ok sourceFile ∧
    ∃ annotations, places.optionalOffset x.annotations = .ok annotations ∧
    ∃ classData, places.optionalOffset x.classData = .ok classData ∧
    ∃ staticValues, places.optionalOffset x.staticValues = .ok staticValues ∧
      Word.full type ++ Word.full x.accessFlags.toNat ++ Word.full superclass ++
        Word.full interfaces ++ Word.full sourceFile ++ Word.full annotations ++
        Word.full classData ++ Word.full staticValues = bs := by
  simp [write]

theorem length_of_write (h : x.write places = .ok bs) : bs.length = 32 := by
  obtain ⟨_, -, _, -, _, -, _, -, _, -, _, -, _, -, rfl⟩ := write_eq_ok.1 h
  simp

theorem exists_write (hx : Each places.IsPlaced x.handles) : ∃ bs, x.write places = .ok bs := by
  obtain ⟨h1, h2, h3, h4, h5, h6, h7⟩ := each_handles.1 hx
  obtain ⟨n1, hn1⟩ := h1.exists_position
  obtain ⟨n2, hn2⟩ := Places.exists_optionalIndex h2
  obtain ⟨n3, hn3⟩ := Places.exists_optionalOffset h3
  obtain ⟨n4, hn4⟩ := Places.exists_optionalIndex h4
  obtain ⟨n5, hn5⟩ := Places.exists_optionalOffset h5
  obtain ⟨n6, hn6⟩ := Places.exists_optionalOffset h6
  obtain ⟨n7, hn7⟩ := Places.exists_optionalOffset h7
  exact ⟨_, write_eq_ok.2
    ⟨n1, hn1, n2, hn2, n3, hn3, n4, hn4, n5, hn5, n6, hn6, n7, hn7, rfl⟩⟩

theorem write_rename (hx : Each (places.Agrees places' ρ) x.handles) :
    (x.rename ρ).write places' = x.write places := by
  obtain ⟨h1, h2, h3, h4, h5, h6, h7⟩ := each_handles.1 hx
  rw [Places.Agrees] at h1
  simp only [write, rename, h1, Places.optionalIndex_map h2, Places.optionalOffset_map h3,
    Places.optionalIndex_map h4, Places.optionalOffset_map h5, Places.optionalOffset_map h6,
    Places.optionalOffset_map h7]

theorem reads (hp : places.Bounded) (h : x.write places = .ok bs) :
    Reads places keeps (fun _ => True) p decode bs fun ρ => x.rename ρ := by
  obtain ⟨n1, h1, n2, h2, n3, h3, n4, h4, n5, h5, n6, h6, n7, h7, rfl⟩ := write_eq_ok.1 h
  have h1 := Places.position_eq_ok.1 h1
  simp only [List.append_assoc]
  rw [← List.append_nil (Word.full n7)]
  refine (Reads.word (hp.lt_word h1)).bind_const ?_
  refine (Reads.index rfl h1).bind_nil fun type _ => ?_
  refine (Reads.word x.accessFlags.toNat_lt).bind_const ?_
  refine (Reads.word (hp.optionalIndex_lt h2)).bind_const ?_
  refine (Reads.optionalIndex hp rfl h2).bind_nil fun superclass _ => ?_
  refine (Reads.word (hp.optionalOffset_lt h3)).bind_const ?_
  refine (Reads.optionalOffset hp rfl h3).bind_nil fun interfaces _ => ?_
  refine (Reads.word (hp.optionalIndex_lt h4)).bind_const ?_
  refine (Reads.optionalIndex hp rfl h4).bind_nil fun sourceFile _ => ?_
  refine (Reads.word (hp.optionalOffset_lt h5)).bind_const ?_
  refine (Reads.optionalOffset hp rfl h5).bind_nil fun annotations _ => ?_
  refine (Reads.word (hp.optionalOffset_lt h6)).bind_const ?_
  refine (Reads.optionalOffset hp rfl h6).bind_nil fun classData _ => ?_
  refine (Reads.word (hp.optionalOffset_lt h7)).bind_const ?_
  refine (Reads.optionalOffset hp rfl h7).bind_nil fun staticValues _ => ?_
  refine Reads.pure fun ρ hρ => ?_
  obtain ⟨⟨⟨⟨⟨⟨⟨-, r1⟩, r2⟩, r3⟩, r4⟩, r5⟩, r6⟩, r7⟩ := hρ
  rw [rename, r1, r2, r3, r4, r5, r6, r7, UInt32.ofNat_toNat]

theorem yields : Yields keeps (fun _ => True) 4 decode fun r x => Each r.Holds x.handles := by
  refine Yields.word.bind fun n1 _ => ?_
  refine (Yields.index rfl n1).bind fun type _ => ?_
  refine Yields.word.bind_tail fun flags _ => ?_
  refine Yields.word.bind_tail fun n2 _ => ?_
  refine (Yields.optionalIndex rfl n2).bind fun superclass _ => ?_
  refine Yields.word.bind_tail fun n3 _ => ?_
  refine (Yields.optionalOffset rfl n3).bind fun interfaces _ => ?_
  refine Yields.word.bind_tail fun n4 _ => ?_
  refine (Yields.optionalIndex rfl n4).bind fun sourceFile _ => ?_
  refine Yields.word.bind_tail fun n5 _ => ?_
  refine (Yields.optionalOffset rfl n5).bind fun annotations _ => ?_
  refine Yields.word.bind_tail fun n6 _ => ?_
  refine (Yields.optionalOffset rfl n6).bind fun classData _ => ?_
  refine Yields.word.bind_tail fun n7 _ => ?_
  refine (Yields.optionalOffset rfl n7).bind fun staticValues _ => Yields.pure fun r hr => ?_
  obtain ⟨⟨⟨⟨⟨⟨⟨⟨⟨⟨⟨⟨⟨⟨⟨-, -⟩, h1⟩, -⟩, -⟩, h2⟩, -⟩, h3⟩, -⟩, h4⟩, -⟩, h5⟩, -⟩, h6⟩, -⟩, h7⟩ := hr
  exact each_handles.2 ⟨h1.2, h2, h3, h4, h5, h6, h7⟩

end DexContainer.ClassDef
