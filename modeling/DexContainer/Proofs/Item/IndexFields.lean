import DexContainer.Proofs.Content

/-! The fields of fixed width that hold the index of another item. Main statement:
`Content.index_of_write`, such a field is written as the low bytes of the index. -/

namespace DexContainer

/-- A field that holds the index of another item. -/
structure IndexField where
  /-- Where the field starts in the item. -/
  offset : Nat
  width : Nat
  target : AnyHandle

namespace Content

variable {places : Places} {k : Kind} {x : Content k} {bs : Bytes}

/-- The fields of an item that hold an index. -/
def indexFields : (k : Kind) → Content k → List IndexField
  | .typeId, x => [⟨0, 4, (TypeId.descriptor x).any⟩]
  | .protoId, x => [⟨0, 4, (ProtoId.shorty x).any⟩, ⟨4, 4, (ProtoId.returnType x).any⟩]
  | .fieldId, x =>
    [⟨0, 2, (FieldId.owner x).any⟩, ⟨2, 2, (FieldId.type x).any⟩, ⟨4, 4, (FieldId.name x).any⟩]
  | .methodId, x =>
    [⟨0, 2, (MethodId.owner x).any⟩, ⟨2, 2, (MethodId.proto x).any⟩,
      ⟨4, 4, (MethodId.name x).any⟩]
  | .classDef, x =>
    ⟨0, 4, (ClassDef.type x).any⟩ :: (ClassDef.superclass x).toList.map (⟨8, 4, ·.any⟩) ++
      (ClassDef.sourceFile x).toList.map (⟨16, 4, ·.any⟩)
  | .typeList, x => (TypeList.types x).mapIdx fun i t => ⟨4 + 2 * i, 2, t.any⟩
  | _, _ => []

/-- The members of a list that are written in one length stand at multiples of it. -/
theorem getElem?_of_writeAll {α : Type} {write : α → Written} {xs : List α} {n i : Nat} {y : α}
    (hn : ∀ x ∈ xs, ∀ bs, write x = .ok bs → bs.length = n) (h : writeAll write xs = .ok bs)
    (hi : xs[i]? = some y) : ∃ cs, write y = .ok cs ∧ (bs.drop (n * i)).take n = cs := by
  obtain ⟨bss, hbss, rfl⟩ := writeAll_eq_ok.1 h
  clear h
  induction hbss generalizing i with
  | nil => cases hi
  | cons hx hrest ih =>
    rename_i x cs xs css
    have hlength := hn x (List.mem_cons_self ..) cs hx
    cases i with
    | zero =>
      obtain rfl := Option.some.inj hi
      refine ⟨cs, hx, ?_⟩
      rw [List.flatten_cons, Nat.mul_zero, List.drop_zero, ← hlength, List.take_left]
    | succ i =>
      obtain ⟨ds, hds, htake⟩ := ih (fun z hz => hn z (List.mem_cons_of_mem _ hz)) hi
      refine ⟨ds, hds, ?_⟩
      rw [List.flatten_cons, Nat.mul_succ, Nat.add_comm, ← List.drop_drop]
      subst hlength
      rwa [List.drop_left]

/-- A field that holds an index is written as the low bytes of the index. -/
theorem index_of_write (h : write places k x = .ok bs) {f : IndexField}
    (hf : f ∈ indexFields k x) : ∃ n, places.position? f.target.1 f.target.2 = some n ∧
      (bs.drop f.offset).take f.width = Word.bytes f.width n := by
  cases k with
  | typeId =>
    obtain ⟨n, hn, h⟩ := bind_eq_ok.1 h
    cases h
    obtain rfl := List.mem_singleton.1 hf
    exact ⟨n, Places.position_eq_ok.1 hn, rfl⟩
  | protoId =>
    simp only [write, ProtoId.write, bind_eq_ok, pure_eq_ok] at h
    obtain ⟨shorty, hshorty, returnType, hreturn, parameters, -, rfl⟩ := h
    simp only [indexFields, List.mem_cons, List.not_mem_nil, or_false] at hf
    rcases hf with rfl | rfl
    · exact ⟨shorty, Places.position_eq_ok.1 hshorty, rfl⟩
    · exact ⟨returnType, Places.position_eq_ok.1 hreturn, rfl⟩
  | fieldId =>
    simp only [write, FieldId.write, bind_eq_ok, pure_eq_ok] at h
    obtain ⟨owner, howner, type, htype, name, hname, rfl⟩ := h
    simp only [indexFields, List.mem_cons, List.not_mem_nil, or_false] at hf
    rcases hf with rfl | rfl | rfl
    · exact ⟨owner, Places.position_eq_ok.1 howner, rfl⟩
    · exact ⟨type, Places.position_eq_ok.1 htype, rfl⟩
    · exact ⟨name, Places.position_eq_ok.1 hname, rfl⟩
  | methodId =>
    simp only [write, MethodId.write, bind_eq_ok, pure_eq_ok] at h
    obtain ⟨owner, howner, proto, hproto, name, hname, rfl⟩ := h
    simp only [indexFields, List.mem_cons, List.not_mem_nil, or_false] at hf
    rcases hf with rfl | rfl | rfl
    · exact ⟨owner, Places.position_eq_ok.1 howner, rfl⟩
    · exact ⟨proto, Places.position_eq_ok.1 hproto, rfl⟩
    · exact ⟨name, Places.position_eq_ok.1 hname, rfl⟩
  | classDef =>
    simp only [write, ClassDef.write, bind_eq_ok, pure_eq_ok] at h
    obtain ⟨type, htype, superclass, hsuperclass, interfaces, -, sourceFile, hsourceFile,
      annotations, -, classData, -, staticValues, -, rfl⟩ := h
    simp only [indexFields, List.mem_append, List.mem_cons, List.mem_map, Option.mem_toList] at hf
    rcases hf with (rfl | ⟨y, hy, rfl⟩) | ⟨y, hy, rfl⟩
    · exact ⟨type, Places.position_eq_ok.1 htype, rfl⟩
    · rw [hy] at hsuperclass
      exact ⟨superclass, Places.position_eq_ok.1 hsuperclass, rfl⟩
    · rw [hy] at hsourceFile
      exact ⟨sourceFile, Places.position_eq_ok.1 hsourceFile, rfl⟩
  | typeList =>
    obtain ⟨cs, hcs, rfl⟩ := TypeList.write_eq_ok.1 h
    obtain ⟨i, hi, rfl⟩ := List.mem_mapIdx.1 hf
    obtain ⟨ds, hds, htake⟩ := getElem?_of_writeAll (n := 2) (fun t _ ds hds => by
      obtain ⟨n, -, rfl⟩ := TypeList.writeEntry_eq_ok.1 hds
      exact Word.half_length n) hcs (List.getElem?_eq_getElem hi)
    obtain ⟨n, hn, rfl⟩ := TypeList.writeEntry_eq_ok.1 hds
    refine ⟨n, Places.position_eq_ok.1 hn, ?_⟩
    rw [← List.drop_drop]
    exact htake
  | _ => exact absurd hf List.not_mem_nil

end Content

end DexContainer
