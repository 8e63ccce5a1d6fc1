import DexContainer.Proofs.Item.Annotations

/-! Sets of annotations, lists of sets and directories as they are written and read. All of them
are lists of words, so their lengths do not depend on where anything stands. -/

namespace DexContainer

variable {places places' : Places} {ρ : Renaming} {keeps : Bool} {p : Nat} {bs : Bytes}

namespace AnnotationSet

variable {x : AnnotationSet}

/-- The handles of the set. -/
def handles (x : AnnotationSet) : List AnyHandle := x.members.map Handle.any

/-- The set with its handles renamed. -/
def rename (ρ : Renaming) (x : AnnotationSet) : AnnotationSet := ⟨x.members.map (ρ _)⟩

/-- The bytes of a member. -/
def writeMember (places : Places) (h : Handle .annotationItem) : Written := do
  return Word.full (← places.position h)

theorem rename_id (x : AnnotationSet) : x.rename (fun _ h => h) = x := by
  simp [rename]

theorem write_eq (x : AnnotationSet) : x.write places = do
    return Word.full x.members.length ++ (← writeAll (writeMember places) x.members) := rfl

theorem write_eq_ok : x.write places = .ok bs ↔
    ∃ cs, writeAll (writeMember places) x.members = .ok cs ∧
      Word.full x.members.length ++ cs = bs := by
  simp [write_eq]

theorem writeMember_eq_ok {h : Handle .annotationItem} : writeMember places h = .ok bs ↔
    ∃ n, places.position h = .ok n ∧ Word.full n = bs := by
  simp [writeMember]

theorem length_of_write (h : x.write places = .ok bs) : x.size = bs.length := by
  obtain ⟨cs, hcs, rfl⟩ := write_eq_ok.1 h
  have hlen : cs.length = 4 * x.members.length := by
    refine length_of_writeAll (fun m _ bs hb => ?_) hcs
    obtain ⟨n, -, rfl⟩ := writeMember_eq_ok.1 hb
    exact Word.full_length n
  simp [size, hlen]

theorem exists_write (hx : Each places.IsPlaced x.handles) : ∃ bs, x.write places = .ok bs := by
  rw [handles, each_map] at hx
  obtain ⟨cs, hcs⟩ := exists_writeAll fun m hm => by
    obtain ⟨n, hn⟩ := (hx m hm).exists_position
    exact ⟨_, writeMember_eq_ok.2 ⟨n, hn, rfl⟩⟩
  exact ⟨_, write_eq_ok.2 ⟨cs, hcs, rfl⟩⟩

theorem write_rename (hx : Each (places.Agrees places' ρ) x.handles) :
    (x.rename ρ).write places' = x.write places := by
  rw [handles, each_map] at hx
  have hw := writeAll_map (v := writeMember places') (w := writeMember places) (ρ _)
    fun m hm => by
      have hm : places'.position (ρ _ m) = places.position m := hx m hm
      simp only [writeMember, hm]
  rw [write_eq, write_eq, rename, hw, List.length_map]

theorem reads (hp : places.Bounded) (h : x.write places = .ok bs) (hb : bs.length < 2 ^ 32) :
    Reads places keeps (fun _ => True) p decode bs fun ρ => x.rename ρ := by
  have hlen := length_of_write h
  obtain ⟨cs, hcs, rfl⟩ := write_eq_ok.1 h
  refine (Reads.word (by rw [size] at hlen; omega)).bind_const ?_
  refine Reads.map AnnotationSet.mk (Reads.writeAll hcs fun m _ ds hds _ p => ?_)
  obtain ⟨n, hn, rfl⟩ := writeMember_eq_ok.1 hds
  have hn := Places.position_eq_ok.1 hn
  rw [← List.append_nil (Word.full n)]
  exact (Reads.word (hp.lt_word hn)).bind_const (Reads.offset rfl hn)

theorem yields : Yields keeps (fun _ => True) 4 decode fun r x => Each r.Holds x.handles := by
  refine Yields.word.bind fun count _ => ?_
  have hmember : Yields keeps (fun _ => True) 0
      (do Decoder.offset .annotationItem (← Decoder.word)) fun r h => r.Holds _ h :=
    Yields.word.bind_tail fun n _ => (Yields.offset rfl n).mono (Nat.le_refl _) fun _ _ _ h => h
  refine (Yields.times hmember count).bind fun members _ => Yields.pure fun r hr => ?_
  exact each_map.2 hr.2.2

end AnnotationSet

namespace AnnotationSetRefList

variable {x : AnnotationSetRefList}

/-- The handles of the list. -/
def handles (x : AnnotationSetRefList) : List AnyHandle :=
  x.sets.flatMap fun o => o.toList.map Handle.any

/-- The list with its handles renamed. -/
def rename (ρ : Renaming) (x : AnnotationSetRefList) : AnnotationSetRefList :=
  ⟨x.sets.map (Option.map (ρ _))⟩

/-- The bytes of an entry. -/
def writeEntry (places : Places) (o : Option (Handle .annotationSet)) : Written := do
  return Word.full (← places.optionalOffset o)

theorem rename_id (x : AnnotationSetRefList) : x.rename (fun _ h => h) = x := by
  simp [rename]

theorem each_handles {P : HandleProperty} :
    Each P x.handles ↔ ∀ o ∈ x.sets, ∀ h ∈ o, P _ h := by
  simp [handles]

theorem write_eq (x : AnnotationSetRefList) : x.write places = do
    return Word.full x.sets.length ++ (← writeAll (writeEntry places) x.sets) := rfl

theorem write_eq_ok : x.write places = .ok bs ↔
    ∃ cs, writeAll (writeEntry places) x.sets = .ok cs ∧ Word.full x.sets.length ++ cs = bs := by
  simp [write_eq]

theorem writeEntry_eq_ok {o : Option (Handle .annotationSet)} : writeEntry places o = .ok bs ↔
    ∃ n, places.optionalOffset o = .ok n ∧ Word.full n = bs := by
  simp [writeEntry]

theorem length_of_write (h : x.write places = .ok bs) : x.size = bs.length := by
  obtain ⟨cs, hcs, rfl⟩ := write_eq_ok.1 h
  have hlen : cs.length = 4 * x.sets.length := by
    refine length_of_writeAll (fun o _ bs hb => ?_) hcs
    obtain ⟨n, -, rfl⟩ := writeEntry_eq_ok.1 hb
    exact Word.full_length n
  simp [size, hlen]

theorem exists_write (hx : Each places.IsPlaced x.handles) : ∃ bs, x.write places = .ok bs := by
  have hx := each_handles.1 hx
  obtain ⟨cs, hcs⟩ := exists_writeAll fun o ho => by
    obtain ⟨n, hn⟩ := Places.exists_optionalOffset (hx o ho)
    exact ⟨_, writeEntry_eq_ok.2 ⟨n, hn, rfl⟩⟩
  exact ⟨_, write_eq_ok.2 ⟨cs, hcs, rfl⟩⟩

theorem write_rename (hx : Each (places.Agrees places' ρ) x.handles) :
    (x.rename ρ).write places' = x.write places := by
  have hx := each_handles.1 hx
  have hw : writeAll (writeEntry places') (x.sets.map (Option.map (ρ _))) =
      writeAll (writeEntry places) x.sets := writeAll_map _ fun o ho => by
      simp only [writeEntry, Places.optionalOffset_map (hx o ho)]
  rw [write_eq, write_eq, rename, hw, List.length_map]

theorem reads (hp : places.Bounded) (h : x.write places = .ok bs) (hb : bs.length < 2 ^ 32) :
    Reads places keeps (fun _ => True) p decode bs fun ρ => x.rename ρ := by
  have hlen := length_of_write h
  obtain ⟨cs, hcs, rfl⟩ := write_eq_ok.1 h
  refine (Reads.word (by rw [size] at hlen; omega)).bind_const ?_
  refine Reads.map AnnotationSetRefList.mk (Reads.writeAll hcs fun o _ ds hds _ p => ?_)
  obtain ⟨n, hn, rfl⟩ := writeEntry_eq_ok.1 hds
  rw [← List.append_nil (Word.full n)]
  exact (Reads.word (hp.optionalOffset_lt hn)).bind_const (Reads.optionalOffset hp rfl hn)

theorem yields : Yields keeps (fun _ => True) 4 decode fun r x => Each r.Holds x.handles := by
  refine Yields.word.bind fun count _ => ?_
  have hentry : Yields keeps (fun _ => True) 0
      (do Decoder.optionalOffset .annotationSet (← Decoder.word))
      fun r o => ∀ h ∈ o, r.Holds _ h :=
    Yields.word.bind_tail fun n _ =>
      (Yields.optionalOffset rfl n).mono (Nat.le_refl _) fun _ _ _ h => h
  refine (Yields.times hentry count).bind fun sets _ => Yields.pure fun r hr => ?_
  exact each_handles.2 hr.2.2

end AnnotationSetRefList

namespace AnnotationsDirectory

variable {x : AnnotationsDirectory} {j k : Kind}

/-- The handles of a row. -/
def handlesOfRow (row : Handle j × Handle k) : List AnyHandle := [row.1.any, row.2.any]

/-- A row with its handles renamed. -/
def renameRow (ρ : Renaming) (row : Handle j × Handle k) : Handle j × Handle k :=
  (ρ _ row.1, ρ _ row.2)

/-- The handles of the directory. -/
def handles (x : AnnotationsDirectory) : List AnyHandle :=
  x.onClass.toList.map Handle.any ++ x.fields.flatMap handlesOfRow ++
    x.methods.flatMap handlesOfRow ++ x.parameters.flatMap handlesOfRow

/-- The directory with its handles renamed. -/
def rename (ρ : Renaming) (x : AnnotationsDirectory) : AnnotationsDirectory where
  onClass := x.onClass.map (ρ _)
  fields := x.fields.map (renameRow ρ)
  methods := x.methods.map (renameRow ρ)
  parameters := x.parameters.map (renameRow ρ)

theorem rename_id (x : AnnotationsDirectory) : x.rename (fun _ h => h) = x := by
  have hrow {j k : Kind} : renameRow (j := j) (k := k) (fun _ h => h) = id := rfl
  simp [rename, hrow]

theorem each_handles {P : HandleProperty} : Each P x.handles ↔
    (∀ h ∈ x.onClass, P _ h) ∧ (∀ row ∈ x.fields, P _ row.1 ∧ P _ row.2) ∧
      (∀ row ∈ x.methods, P _ row.1 ∧ P _ row.2) ∧
      ∀ row ∈ x.parameters, P _ row.1 ∧ P _ row.2 := by
  simp [handles, handlesOfRow]

theorem write_eq_ok : x.write places = .ok bs ↔
    ∃ onClass, places.optionalOffset x.onClass = .ok onClass ∧
    ∃ fields, writeAll (writeRow places) x.fields = .ok fields ∧
    ∃ methods, writeAll (writeRow places) x.methods = .ok methods ∧
    ∃ parameters, writeAll (writeRow places) x.parameters = .ok parameters ∧
      Word.full onClass ++ Word.full x.fields.length ++ Word.full x.methods.length ++
        Word.full x.parameters.length ++ fields ++ methods ++ parameters = bs := by
  simp [write]

theorem writeRow_eq_ok {row : Handle j × Handle k} : writeRow places row = .ok bs ↔
    ∃ m, places.position row.1 = .ok m ∧ ∃ n, places.position row.2 = .ok n ∧
      Word.full m ++ Word.full n = bs := by
  simp [writeRow]

theorem length_of_writeRows {rows : List (Handle j × Handle k)}
    (h : writeAll (writeRow places) rows = .ok bs) : bs.length = 8 * rows.length := by
  refine length_of_writeAll (fun row _ bs hb => ?_) h
  obtain ⟨m, -, n, -, rfl⟩ := writeRow_eq_ok.1 hb
  simp

theorem length_of_write (h : x.write places = .ok bs) : x.size = bs.length := by
  obtain ⟨onClass, -, fields, hf, methods, hm, parameters, hp, rfl⟩ := write_eq_ok.1 h
  simp only [size, List.length_append, Word.full_length, length_of_writeRows hf,
    length_of_writeRows hm, length_of_writeRows hp]
  omega

theorem exists_writeRows {rows : List (Handle j × Handle k)}
    (h : ∀ row ∈ rows, places.IsPlaced _ row.1 ∧ places.IsPlaced _ row.2) :
    ∃ bs, writeAll (writeRow places) rows = .ok bs :=
  exists_writeAll fun row hrow => by
    obtain ⟨m, hm⟩ := (h row hrow).1.exists_position
    obtain ⟨n, hn⟩ := (h row hrow).2.exists_position
    exact ⟨_, writeRow_eq_ok.2 ⟨m, hm, n, hn, rfl⟩⟩

theorem exists_write (hx : Each places.IsPlaced x.handles) : ∃ bs, x.write places = .ok bs := by
  obtain ⟨h1, h2, h3, h4⟩ := each_handles.1 hx
  obtain ⟨onClass, h1⟩ := Places.exists_optionalOffset h1
  obtain ⟨fields, h2⟩ := exists_writeRows h2
  obtain ⟨methods, h3⟩ := exists_writeRows h3
  obtain ⟨parameters, h4⟩ := exists_writeRows h4
  exact ⟨_, write_eq_ok.2 ⟨_, h1, _, h2, _, h3, _, h4, rfl⟩⟩

theorem writeRows_rename {rows : List (Handle j × Handle k)}
    (h : ∀ row ∈ rows, places.Agrees places' ρ _ row.1 ∧ places.Agrees places' ρ _ row.2) :
    writeAll (writeRow places') (rows.map (renameRow ρ)) = writeAll (writeRow places) rows :=
  writeAll_map _ fun row hrow => by
    have h1 : places'.position (ρ _ row.1) = places.position row.1 := (h row hrow).1
    have h2 : places'.position (ρ _ row.2) = places.position row.2 := (h row hrow).2
    simp only [writeRow, renameRow, h1, h2]

theorem write_rename (hx : Each (places.Agrees places' ρ) x.handles) :
    (x.rename ρ).write places' = x.write places := by
  obtain ⟨h1, h2, h3, h4⟩ := each_handles.1 hx
  simp only [write, rename, Places.optionalOffset_map h1, writeRows_rename h2,
    writeRows_rename h3, writeRows_rename h4, List.length_map]

theorem reads_rows {rows : List (Handle j × Handle k)} {given : Renaming → Prop}
    (hp : places.Bounded) (hj : j.isIndexed = true) (hk : k.isIndexed = false)
    (h : writeAll (writeRow places) rows = .ok bs) :
    Reads places keeps given p (Decoder.times rows.length (decodeRow j k)) bs
      fun ρ => rows.map (renameRow ρ) := by
  refine Reads.writeAll h fun row _ ds hds _ p => ?_
  obtain ⟨m, hm, n, hn, rfl⟩ := writeRow_eq_ok.1 hds
  have hm := Places.position_eq_ok.1 hm
  have hn := Places.position_eq_ok.1 hn
  rw [← List.append_nil (Word.full n)]
  refine (Reads.word (hp.lt_word hm)).bind_const ?_
  refine (Reads.index hj hm).bind_nil fun member _ => ?_
  refine (Reads.word (hp.lt_word hn)).bind_const ?_
  refine (Reads.offset hk hn).bind_nil fun attached _ => Reads.pure fun ρ hρ => ?_
  rw [renameRow, hρ.1.2, hρ.2]

theorem reads (hp : places.Bounded) (h : x.write places = .ok bs) (hb : bs.length < 2 ^ 32) :
    Reads places keeps (fun _ => True) p decode bs fun ρ => x.rename ρ := by
  have hlen := length_of_write h
  obtain ⟨onClass, h1, fields, h2, methods, h3, parameters, h4, rfl⟩ := write_eq_ok.1 h
  rw [size] at hlen
  simp only [List.append_assoc]
  rw [← List.append_nil parameters]
  refine (Reads.word (hp.optionalOffset_lt h1)).bind_const ?_
  refine (Reads.optionalOffset hp rfl h1).bind_nil fun onClass _ => ?_
  refine (Reads.word (by omega)).bind_const ?_
  refine (Reads.word (by omega)).bind_const ?_
  refine (Reads.word (by omega)).bind_const ?_
  refine (reads_rows hp rfl rfl h2).bind fun fields _ => ?_
  refine (reads_rows hp rfl rfl h3).bind fun methods _ => ?_
  refine (reads_rows hp rfl rfl h4).bind fun parameters _ => Reads.pure fun ρ hρ => ?_
  obtain ⟨⟨⟨⟨-, r1⟩, r2⟩, r3⟩, r4⟩ := hρ
  rw [rename, r1, r2, r3, r4]

theorem yields_row (hj : j.isIndexed = true) (hk : k.isIndexed = false) :
    Yields keeps (fun _ => True) 0 (decodeRow j k)
      fun r row => r.Holds _ row.1 ∧ r.Holds _ row.2 := by
  refine Yields.word.bind_tail fun m _ => ?_
  refine (Yields.index hj m).bind fun member _ => ?_
  refine Yields.word.bind_tail fun n _ => ?_
  refine (Yields.offset hk n).bind fun attached _ => Yields.pure fun r hr => ?_
  exact ⟨hr.1.1.2.2, hr.2⟩

theorem yields : Yields keeps (fun _ => True) 4 decode fun r x => Each r.Holds x.handles := by
  refine Yields.word.bind fun n _ => ?_
  refine (Yields.optionalOffset rfl n).bind fun onClass _ => ?_
  refine Yields.word.bind_tail fun fieldCount _ => ?_
  refine Yields.word.bind_tail fun methodCount _ => ?_
  refine Yields.word.bind_tail fun parameterCount _ => ?_
  refine (Yields.times (yields_row rfl rfl) fieldCount).bind fun fields _ => ?_
  refine (Yields.times (yields_row rfl rfl) methodCount).bind fun methods _ => ?_
  refine (Yields.times (yields_row rfl rfl) parameterCount).bind fun parameters _ => ?_
  refine Yields.pure fun r hr => ?_
  obtain ⟨⟨⟨⟨⟨⟨⟨-, h1⟩, -⟩, -⟩, -⟩, h2⟩, h3⟩, h4⟩ := hr
  exact each_handles.2 ⟨h1, h2.2, h3.2, h4.2⟩

end AnnotationsDirectory

end DexContainer
