import DexContainer.Item.Identifiers
import DexContainer.Proofs.Reads.Primitives
import DexContainer.Proofs.Yields

/-! The entries of the identifier tables as they are written and read. Main statements: an entry
whose handles are placed is written, it takes the width of its table, it is written alike from two
tables of positions that agree, what was written is read back, and whatever is read refers to what
was met. -/

namespace DexContainer

variable {places places' : Places} {ρ : Renaming} {keeps : Bool} {p : Nat} {bs : Bytes}

namespace StringId

/-- The handles of the entry. -/
def handles (x : StringId) : List AnyHandle := [x.data.any]

/-- The entry with its handles renamed. -/
def rename (ρ : Renaming) (x : StringId) : StringId := ⟨ρ _ x.data⟩

theorem rename_id (x : StringId) : x.rename (fun _ h => h) = x := rfl

theorem write_eq_ok {x : StringId} :
    x.write places = .ok bs ↔ ∃ n, places.position x.data = .ok n ∧ Word.full n = bs := by
  simp [write]

theorem length_of_write {x : StringId} (h : x.write places = .ok bs) : bs.length = 4 := by
  obtain ⟨n, -, rfl⟩ := write_eq_ok.1 h
  exact Word.full_length n

theorem exists_write {x : StringId} (hx : Each places.IsPlaced x.handles) :
    ∃ bs, x.write places = .ok bs := by
  simp only [handles, each_cons] at hx
  obtain ⟨n, hn⟩ := hx.1.exists_position
  exact ⟨_, write_eq_ok.2 ⟨n, hn, rfl⟩⟩

theorem write_rename {x : StringId} (hx : Each (places.Agrees places' ρ) x.handles) :
    (x.rename ρ).write places' = x.write places := by
  simp only [handles, each_cons] at hx
  have h1 : places'.position (ρ _ x.data) = places.position x.data := hx.1
  simp only [write, rename, h1]

theorem reads {x : StringId} (hp : places.Bounded) (h : x.write places = .ok bs) :
    Reads places keeps (fun _ => True) p decode bs fun ρ => x.rename ρ := by
  obtain ⟨n, hn, rfl⟩ := write_eq_ok.1 h
  have hn := Places.position_eq_ok.1 hn
  rw [← List.append_nil (Word.full n)]
  refine (Reads.word (hp.lt_word hn)).bind_const ?_
  refine (Reads.offset rfl hn).bind_nil fun d _ => ?_
  refine Reads.pure fun ρ hρ => ?_
  rw [rename, hρ.2]

theorem yields :
    Yields keeps (fun _ => True) 4 decode fun r x => Each r.Holds x.handles := by
  refine Yields.word.bind fun n _ => ?_
  refine (Yields.offset rfl n).bind fun h _ => Yields.pure fun r hr => ?_
  simp [handles, hr.2]

end StringId


namespace TypeId

/-- The handles of the entry. -/
def handles (x : TypeId) : List AnyHandle := [x.descriptor.any]

/-- The entry with its handles renamed. -/
def rename (ρ : Renaming) (x : TypeId) : TypeId := ⟨ρ _ x.descriptor⟩

theorem rename_id (x : TypeId) : x.rename (fun _ h => h) = x := rfl

theorem write_eq_ok {x : TypeId} :
    x.write places = .ok bs ↔ ∃ n, places.position x.descriptor = .ok n ∧ Word.full n = bs := by
  simp [write]

theorem length_of_write {x : TypeId} (h : x.write places = .ok bs) : bs.length = 4 := by
  obtain ⟨n, -, rfl⟩ := write_eq_ok.1 h
  exact Word.full_length n

theorem exists_write {x : TypeId} (hx : Each places.IsPlaced x.handles) :
    ∃ bs, x.write places = .ok bs := by
  simp only [handles, each_cons] at hx
  obtain ⟨n, hn⟩ := hx.1.exists_position
  exact ⟨_, write_eq_ok.2 ⟨n, hn, rfl⟩⟩

theorem write_rename {x : TypeId} (hx : Each (places.Agrees places' ρ) x.handles) :
    (x.rename ρ).write places' = x.write places := by
  simp only [handles, each_cons] at hx
  have h1 : places'.position (ρ _ x.descriptor) = places.position x.descriptor := hx.1
  simp only [write, rename, h1]

theorem reads {x : TypeId} (hp : places.Bounded) (h : x.write places = .ok bs) :
    Reads places keeps (fun _ => True) p decode bs fun ρ => x.rename ρ := by
  obtain ⟨n, hn, rfl⟩ := write_eq_ok.1 h
  have hn := Places.position_eq_ok.1 hn
  rw [← List.append_nil (Word.full n)]
  refine (Reads.word (hp.lt_word hn)).bind_const ?_
  refine (Reads.index rfl hn).bind_nil fun d _ => ?_
  refine Reads.pure fun ρ hρ => ?_
  rw [rename, hρ.2]

theorem yields :
    Yields keeps (fun _ => True) 4 decode fun r x => Each r.Holds x.handles := by
  refine Yields.word.bind fun n _ => ?_
  refine (Yields.index rfl n).bind fun h _ => Yields.pure fun r hr => ?_
  simp [handles, hr.2.2]

end TypeId

namespace ProtoId

/-- The handles of the entry. -/
def handles (x : ProtoId) : List AnyHandle :=
  x.shorty.any :: x.returnType.any :: x.parameters.toList.map Handle.any

/-- The entry with its handles renamed. -/
def rename (ρ : Renaming) (x : ProtoId) : ProtoId where
  shorty := ρ _ x.shorty
  returnType := ρ _ x.returnType
  parameters := x.parameters.map (ρ _)

theorem rename_id (x : ProtoId) : x.rename (fun _ h => h) = x := by
  simp [rename]

theorem each_handles {P : HandleProperty} {x : ProtoId} : Each P x.handles ↔
    P _ x.shorty ∧ P _ x.returnType ∧ ∀ h ∈ x.parameters, P _ h := by
  simp [handles]

theorem write_eq_ok {x : ProtoId} : x.write places = .ok bs ↔
    ∃ l, places.position x.shorty = .ok l ∧ ∃ m, places.position x.returnType = .ok m ∧
      ∃ n, places.optionalOffset x.parameters = .ok n ∧
        Word.full l ++ Word.full m ++ Word.full n = bs := by
  simp [write]

theorem length_of_write {x : ProtoId} (h : x.write places = .ok bs) : bs.length = 12 := by
  obtain ⟨l, -, m, -, n, -, rfl⟩ := write_eq_ok.1 h
  simp

theorem exists_write {x : ProtoId} (hx : Each places.IsPlaced x.handles) :
    ∃ bs, x.write places = .ok bs := by
  obtain ⟨h1, h2, h3⟩ := each_handles.1 hx
  obtain ⟨l, hl⟩ := h1.exists_position
  obtain ⟨m, hm⟩ := h2.exists_position
  obtain ⟨n, hn⟩ := Places.exists_optionalOffset h3
  exact ⟨_, write_eq_ok.2 ⟨l, hl, m, hm, n, hn, rfl⟩⟩

theorem write_rename {x : ProtoId} (hx : Each (places.Agrees places' ρ) x.handles) :
    (x.rename ρ).write places' = x.write places := by
  obtain ⟨h1, h2, h3⟩ := each_handles.1 hx
  rw [Places.Agrees] at h1 h2
  simp only [write, rename, h1, h2, Places.optionalOffset_map h3]

theorem reads {x : ProtoId} (hp : places.Bounded) (h : x.write places = .ok bs) :
    Reads places keeps (fun _ => True) p decode bs fun ρ => x.rename ρ := by
  obtain ⟨l, hl, m, hm, n, hn, rfl⟩ := write_eq_ok.1 h
  have hl := Places.position_eq_ok.1 hl
  have hm := Places.position_eq_ok.1 hm
  rw [List.append_assoc, ← List.append_nil (Word.full n)]
  refine (Reads.word (hp.lt_word hl)).bind_const ?_
  refine (Reads.index rfl hl).bind_nil fun shorty _ => ?_
  refine (Reads.word (hp.lt_word hm)).bind_const ?_
  refine (Reads.index rfl hm).bind_nil fun returnType _ => ?_
  refine (Reads.word (hp.optionalOffset_lt hn)).bind_const ?_
  refine (Reads.optionalOffset hp rfl hn).bind_nil fun parameters _ => ?_
  refine Reads.pure fun ρ hρ => ?_
  obtain ⟨⟨⟨-, h1⟩, h2⟩, h3⟩ := hρ
  rw [rename, h1, h2, h3]

theorem yields :
    Yields keeps (fun _ => True) 4 decode fun r x => Each r.Holds x.handles := by
  refine Yields.word.bind fun l _ => ?_
  refine (Yields.index rfl l).bind fun shorty _ => ?_
  refine Yields.word.bind_tail fun m _ => ?_
  refine (Yields.index rfl m).bind fun returnType _ => ?_
  refine Yields.word.bind_tail fun n _ => ?_
  refine (Yields.optionalOffset rfl n).bind fun parameters _ => Yields.pure fun r hr => ?_
  obtain ⟨⟨⟨⟨⟨-, h1⟩, -⟩, h2⟩, -⟩, h3⟩ := hr
  exact each_handles.2 ⟨h1.2, h2.2, h3⟩

end ProtoId

namespace FieldId

/-- The handles of the entry. -/
def handles (x : FieldId) : List AnyHandle := [x.owner.any, x.type.any, x.name.any]

/-- The entry with its handles renamed. -/
def rename (ρ : Renaming) (x : FieldId) : FieldId := ⟨ρ _ x.owner, ρ _ x.type, ρ _ x.name⟩

/-- The indices of the types fit into 16 bits. -/
def IsEncodable (places : Places) (x : FieldId) : Prop :=
  places.FitsHalf _ x.owner ∧ places.FitsHalf _ x.type

theorem rename_id (x : FieldId) : x.rename (fun _ h => h) = x := rfl

theorem each_handles {P : HandleProperty} {x : FieldId} :
    Each P x.handles ↔ P _ x.owner ∧ P _ x.type ∧ P _ x.name := by
  simp [handles]

theorem write_eq_ok {x : FieldId} : x.write places = .ok bs ↔
    ∃ l, places.position x.owner = .ok l ∧ ∃ m, places.position x.type = .ok m ∧
      ∃ n, places.position x.name = .ok n ∧ Word.half l ++ Word.half m ++ Word.full n = bs := by
  simp [write]

theorem length_of_write {x : FieldId} (h : x.write places = .ok bs) : bs.length = 8 := by
  obtain ⟨l, -, m, -, n, -, rfl⟩ := write_eq_ok.1 h
  simp

theorem exists_write {x : FieldId} (hx : Each places.IsPlaced x.handles) :
    ∃ bs, x.write places = .ok bs := by
  obtain ⟨h1, h2, h3⟩ := each_handles.1 hx
  obtain ⟨l, hl⟩ := h1.exists_position
  obtain ⟨m, hm⟩ := h2.exists_position
  obtain ⟨n, hn⟩ := h3.exists_position
  exact ⟨_, write_eq_ok.2 ⟨l, hl, m, hm, n, hn, rfl⟩⟩

theorem write_rename {x : FieldId} (hx : Each (places.Agrees places' ρ) x.handles) :
    (x.rename ρ).write places' = x.write places := by
  obtain ⟨h1, h2, h3⟩ := each_handles.1 hx
  rw [Places.Agrees] at h1 h2 h3
  simp only [write, rename, h1, h2, h3]

theorem reads {x : FieldId} (hp : places.Bounded) (hx : x.IsEncodable places)
    (h : x.write places = .ok bs) :
    Reads places keeps (fun _ => True) p decode bs fun ρ => x.rename ρ := by
  obtain ⟨l, hl, m, hm, n, hn, rfl⟩ := write_eq_ok.1 h
  have hl := Places.position_eq_ok.1 hl
  have hm := Places.position_eq_ok.1 hm
  have hn := Places.position_eq_ok.1 hn
  rw [List.append_assoc, ← List.append_nil (Word.full n)]
  refine (Reads.half (hx.1 l hl)).bind_const ?_
  refine (Reads.index rfl hl).bind_nil fun owner _ => ?_
  refine (Reads.half (hx.2 m hm)).bind_const ?_
  refine (Reads.index rfl hm).bind_nil fun type _ => ?_
  refine (Reads.word (hp.lt_word hn)).bind_const ?_
  refine (Reads.index rfl hn).bind_nil fun name _ => ?_
  refine Reads.pure fun ρ hρ => ?_
  obtain ⟨⟨⟨-, h1⟩, h2⟩, h3⟩ := hρ
  rw [rename, h1, h2, h3]

theorem yields : Yields keeps (fun _ => True) 2 decode fun r x =>
    Each r.Holds x.handles ∧ x.owner.id < 2 ^ 16 ∧ x.type.id < 2 ^ 16 := by
  refine Yields.half.bind fun l _ => ?_
  refine (Yields.index rfl l).bind fun owner _ => ?_
  refine Yields.half.bind_tail fun m _ => ?_
  refine (Yields.index rfl m).bind fun type _ => ?_
  refine Yields.word.bind_tail fun n _ => ?_
  refine (Yields.index rfl n).bind fun name _ => Yields.pure fun r hr => ?_
  obtain ⟨⟨⟨⟨⟨⟨-, hl⟩, h1⟩, hm⟩, h2⟩, -⟩, h3⟩ := hr
  refine ⟨each_handles.2 ⟨h1.2, h2.2, h3.2⟩, ?_, ?_⟩
  · rwa [h1.1]
  · rwa [h2.1]

end FieldId

namespace MethodId

/-- The handles of the entry. -/
def handles (x : MethodId) : List AnyHandle := [x.owner.any, x.proto.any, x.name.any]

/-- The entry with its handles renamed. -/
def rename (ρ : Renaming) (x : MethodId) : MethodId := ⟨ρ _ x.owner, ρ _ x.proto, ρ _ x.name⟩

/-- The indices of the type and of the prototype fit into 16 bits. -/
def IsEncodable (places : Places) (x : MethodId) : Prop :=
  places.FitsHalf _ x.owner ∧ places.FitsHalf _ x.proto

theorem rename_id (x : MethodId) : x.rename (fun _ h => h) = x := rfl

theorem each_handles {P : HandleProperty} {x : MethodId} :
    Each P x.handles ↔ P _ x.owner ∧ P _ x.proto ∧ P _ x.name := by
  simp [handles]

theorem write_eq_ok {x : MethodId} : x.write places = .ok bs ↔
    ∃ l, places.position x.owner = .ok l ∧ ∃ m, places.position x.proto = .ok m ∧
      ∃ n, places.position x.name = .ok n ∧ Word.half l ++ Word.half m ++ Word.full n = bs := by
  simp [write]

theorem length_of_write {x : MethodId} (h : x.write places = .ok bs) : bs.length = 8 := by
  obtain ⟨l, -, m, -, n, -, rfl⟩ := write_eq_ok.1 h
  simp

theorem exists_write {x : MethodId} (hx : Each places.IsPlaced x.handles) :
    ∃ bs, x.write places = .ok bs := by
  obtain ⟨h1, h2, h3⟩ := each_handles.1 hx
  obtain ⟨l, hl⟩ := h1.exists_position
  obtain ⟨m, hm⟩ := h2.exists_position
  obtain ⟨n, hn⟩ := h3.exists_position
  exact ⟨_, write_eq_ok.2 ⟨l, hl, m, hm, n, hn, rfl⟩⟩

theorem write_rename {x : MethodId} (hx : Each (places.Agrees places' ρ) x.handles) :
    (x.rename ρ).write places' = x.write places := by
  obtain ⟨h1, h2, h3⟩ := each_handles.1 hx
  rw [Places.Agrees] at h1 h2 h3
  simp only [write, rename, h1, h2, h3]

theorem reads {x : MethodId} (hp : places.Bounded) (hx : x.IsEncodable places)
    (h : x.write places = .ok bs) :
    Reads places keeps (fun _ => True) p decode bs fun ρ => x.rename ρ := by
  obtain ⟨l, hl, m, hm, n, hn, rfl⟩ := write_eq_ok.1 h
  have hl := Places.position_eq_ok.1 hl
  have hm := Places.position_eq_ok.1 hm
  have hn := Places.position_eq_ok.1 hn
  rw [List.append_assoc, ← List.append_nil (Word.full n)]
  refine (Reads.half (hx.1 l hl)).bind_const ?_
  refine (Reads.index rfl hl).bind_nil fun owner _ => ?_
  refine (Reads.half (hx.2 m hm)).bind_const ?_
  refine (Reads.index rfl hm).bind_nil fun proto _ => ?_
  refine (Reads.word (hp.lt_word hn)).bind_const ?_
  refine (Reads.index rfl hn).bind_nil fun name _ => ?_
  refine Reads.pure fun ρ hρ => ?_
  obtain ⟨⟨⟨-, h1⟩, h2⟩, h3⟩ := hρ
  rw [rename, h1, h2, h3]

theorem yields : Yields keeps (fun _ => True) 2 decode fun r x =>
    Each r.Holds x.handles ∧ x.owner.id < 2 ^ 16 ∧ x.proto.id < 2 ^ 16 := by
  refine Yields.half.bind fun l _ => ?_
  refine (Yields.index rfl l).bind fun owner _ => ?_
  refine Yields.half.bind_tail fun m _ => ?_
  refine (Yields.index rfl m).bind fun proto _ => ?_
  refine Yields.word.bind_tail fun n _ => ?_
  refine (Yields.index rfl n).bind fun name _ => Yields.pure fun r hr => ?_
  obtain ⟨⟨⟨⟨⟨⟨-, hl⟩, h1⟩, hm⟩, h2⟩, -⟩, h3⟩ := hr
  refine ⟨each_handles.2 ⟨h1.2, h2.2, h3.2⟩, ?_, ?_⟩
  · rwa [h1.1]
  · rwa [h2.1]

end MethodId

end DexContainer
