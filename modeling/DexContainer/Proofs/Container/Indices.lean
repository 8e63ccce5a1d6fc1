import Mathlib.Algebra.Group.Action.Defs
import DexContainer.Proofs.Container.Building
import DexContainer.Proofs.Container.Rounds
import DexContainer.Proofs.Container.Rows
import DexContainer.Proofs.Item.IndexFields

/-! The indices in a written image. Main statements: `indices_of_write`, a field that holds an index
holds the low bytes of it, which are the index unless the field has 16 bits and the index does not
fit; and `exists_truncated`, nothing keeps a container from having more types than such a field can
tell apart. -/

namespace DexContainer

variable {k : Kind}

theorem Content.width_of_mem_indexFields {x : Content k} {f : IndexField}
    (hf : f ∈ Content.indexFields k x) : f.width = 2 ∨ f.width = 4 := by
  cases k with
  | typeList =>
    obtain ⟨i, hi, rfl⟩ := List.mem_mapIdx.1 hf
    exact .inl rfl
  | classDef =>
    simp only [indexFields, List.mem_append, List.mem_cons, List.mem_map] at hf
    rcases hf with (rfl | ⟨_, -, rfl⟩) | ⟨_, -, rfl⟩ <;> exact .inr rfl
  | typeId | protoId | fieldId | methodId =>
    simp only [indexFields, List.mem_cons, List.not_mem_nil, or_false] at hf
    rcases hf with rfl | rfl | rfl <;> simp
  | _ => exact absurd hf List.not_mem_nil

theorem ModifiedUtf8.length_encode_le (us : List Nat) : (encode us).length ≤ us.length * 3 := by
  have := List.sum_le_card_nsmul (us.map fun u => (encodeUnit u).length) 3 fun n hn => by
    obtain ⟨u, -, rfl⟩ := List.mem_map.1 hn
    rw [encodeUnit]
    split
    · exact Nat.le_of_ble_eq_true rfl
    · split <;> exact Nat.le_of_ble_eq_true rfl
  rwa [List.length_map, smul_eq_mul, ← List.length_flatMap] at this

namespace Container

variable {c d : Container} {ks : List Kind} {h : Handle k} {x : Content k} {f : IndexField}
  {image : Image} {start finish width : Nat}

/-- The number in a field of the item that starts at an offset. -/
def storedIndex (image : Image) (start : Nat) (f : IndexField) : Nat :=
  Word.ofBytes (image.extract (start + f.offset) (start + f.offset + f.width)).toList

/-- A field holds the low bytes of the index. -/
theorem exists_storedIndex (hc : c.Reachable) (hwrite : c.write = .ok (d, image))
    (hx : c.get h = .ok x) (hf : f ∈ Content.indexFields k x) : ∃ start n,
    (c.sectionOf k).offsetOf? h = some start ∧ c.position? f.target.2 = some n ∧
      storedIndex image start f = n % 256 ^ f.width := by
  obtain ⟨hstage, himage, -⟩ := write_eq_ok.1 hwrite
  have hcoherent := hc.coherent
  obtain ⟨dataEnd, hlaid⟩ := hcoherent.placed hstage
  obtain ⟨start, bs, hstart, hbs, tail, htail⟩ :=
    exists_bytes_of_image hcoherent.wellFormed hcoherent.singletons hlaid himage hx
  obtain ⟨n, hn, hfield⟩ := Content.index_of_write hbs hf
  refine ⟨start, n, hstart, hn, ?_⟩
  have hlength := congrArg List.length hfield
  rw [List.length_take, List.length_drop, Word.bytes_length] at hlength
  have hpos : 0 < f.width := by
    rcases Content.width_of_mem_indexFields hf with h | h <;> omega
  rw [storedIndex, Array.toList_extract, List.extract_eq_take_drop, Nat.add_sub_cancel_left,
    ← List.drop_drop, ← htail, List.drop_append_of_le_length (by omega),
    List.take_append_of_le_length (by rw [List.length_drop]; omega), hfield, Word.ofBytes_bytes]

/-- In a written image of fewer than 2^32 bytes a field that holds an index is what it should be,
unless it has 16 bits and the index does not fit: then it holds the low 16 bits of it. -/
theorem indices_of_write (hc : c.Reachable) (hwrite : c.write = .ok (d, image))
    (hshort : image.size < 2 ^ 32) (hx : c.get h = .ok x) (hf : f ∈ Content.indexFields k x) :
    ∃ start n, (c.sectionOf k).offsetOf? h = some start ∧ c.position? f.target.2 = some n ∧
      storedIndex image start f = n % 256 ^ f.width ∧
      (storedIndex image start f = n ↔ f.width = 4 ∨ n < 65536) := by
  obtain ⟨start, n, hstart, hn, hstored⟩ := exists_storedIndex hc hwrite hx hf
  refine ⟨start, n, hstart, hn, hstored, ?_⟩
  obtain ⟨hstage, himage, -⟩ := write_eq_ok.1 hwrite
  have hcoherent := hc.coherent
  obtain ⟨dataEnd, hlaid⟩ := hcoherent.placed hstage
  have hsize := (of_image hcoherent.wellFormed hcoherent.singletons hlaid himage).1
  have hlt : n < 0xffffffff := (bounded_of_laidOut hcoherent.wellFormed hcoherent.singletons hlaid
    (by rwa [← hsize])).1 f.target.1 f.target.2 n hn
  rw [hstored]
  rcases Content.width_of_mem_indexFields hf with hwidth | hwidth
  · rw [hwidth, show (256 : Nat) ^ 2 = 65536 from rfl]
    omega
  · rw [hwidth, show (256 : Nat) ^ 4 = 2 ^ 32 from rfl, Nat.mod_eq_of_lt (by omega)]
    simp

/-- The type that a container with one method has is written as the class of the method. -/
theorem indices_of_write_oneMethod : ∃ (c d : Container) (image : Image) (x : MethodId)
    (start : Nat), c.Reachable ∧ c.write = .ok (d, image) ∧ image.size < 2 ^ 32 ∧
    c.get (⟨0⟩ : Handle .methodId) = .ok x ∧
    ⟨0, 2, x.owner.any⟩ ∈ Content.indexFields .methodId x ∧
    storedIndex image start ⟨0, 2, x.owner.any⟩ = 0 := by
  obtain ⟨b, c, hb, hplace, -⟩ := exists_place_oneMethod
  have hreachable := reachable_of_oneMethod hb
  have hcoherent := hreachable.coherent
  obtain ⟨hlays, hsize, dataEnd, hlaid⟩ :=
    laidOut_of_placeWithin hcoherent.wellFormed hcoherent.singletons hplace
  have hclosed := closed_of_laysOut hcoherent.wellFormed (closed_of_oneMethod hb) hlays
  obtain ⟨image, himage⟩ := exists_image (hcoherent.place hplace) hclosed hlaid
  have hlength := ((of_image hlays.wellFormed hlays.singletons hlaid himage).1).trans hsize
  have hwrite := write_eq_ok.2 ⟨congrArg Stage.isPlaced hlays.stage, himage, rfl⟩
  have hmethod : c.get (⟨0⟩ : Handle .methodId) = .ok ⟨⟨0⟩, ⟨0⟩, ⟨0⟩⟩ := by
    obtain ⟨-, -, -, -, hmethods, -⟩ := items_of_oneMethod hb
    rw [get_eq_ok, Section.get?, hlays.items .methodId rfl, hmethods]
    rfl
  have hshort : image.size < 2 ^ 32 := by
    rw [hlength]
    decide
  obtain ⟨start, n, -, hn, -, hexact⟩ := indices_of_write (hreachable.place hplace) hwrite hshort
    hmethod (List.mem_cons_self ..)
  obtain rfl : n = 0 := (hcoherent.place hplace).numbers .typeId _ rfl n hn
  exact ⟨c, _, image, _, start, hreachable.place hplace, hwrite, hshort, hmethod,
    List.mem_cons_self .., hexact.2 (.inr (by decide))⟩

/-! ### More types than 16 bits can tell apart -/

/-- The descriptors of different classes. -/
def manyDescriptor (i : Nat) : String := String.ofList ['L', Char.ofNat (65536 + i), ';']

/-- A field whose class is the last of the types. -/
def manyTypes : (k : Kind) → List (Content k)
  | .stringData => (List.range 65537).map fun i => StringData.ofText (manyDescriptor i)
  | .stringId => (List.range 65537).map fun i => ⟨⟨i⟩⟩
  | .typeId => (List.range 65537).map fun i => ⟨⟨i⟩⟩
  | .fieldId => [⟨⟨65536⟩, ⟨65536⟩, ⟨0⟩⟩]
  | _ => []

theorem toNat_ofNat {n : Nat} (h : n.isValidChar) : (Char.ofNat n).toNat = n := by
  rw [Char.ofNat, dif_pos h]
  rfl

theorem nodup_manyTypes (k : Kind) : (manyTypes k).Nodup := by
  cases k with
  | stringData =>
    refine List.Nodup.map_on (fun i hi j hj hij => ?_) List.nodup_range
    have htext := congrArg StringData.text hij
    rw [StringData.text_ofText, StringData.text_ofText, manyDescriptor, manyDescriptor,
      String.ofList_inj] at htext
    simp only [List.cons.injEq, and_true, true_and] at htext
    have hchar := congrArg Char.toNat htext
    have hi := List.mem_range.1 hi
    have hj := List.mem_range.1 hj
    rw [toNat_ofNat (.inr (by omega)), toNat_ofNat (.inr (by omega))] at hchar
    omega
  | stringId =>
    refine List.Nodup.map_on (fun i _ j _ hij => ?_) List.nodup_range
    simpa using hij
  | typeId =>
    refine List.Nodup.map_on (fun i _ j _ hij => ?_) List.nodup_range
    simpa using hij
  | _ => first | exact List.nodup_singleton _ | exact List.nodup_nil

theorem check_of_mem_manyTypes (k : Kind) : ∀ x ∈ manyTypes k, Content.check k x = .ok () := by
  cases k with
  | stringData | stringId | typeId | fieldId => exact fun _ _ => rfl
  | _ => exact fun x hx => absurd hx List.not_mem_nil

theorem length_manyTypes (hk : k = .stringData ∨ k = .stringId ∨ k = .typeId) :
    (manyTypes k).length = 65537 := by
  rcases hk with rfl | rfl | rfl <;> rw [manyTypes, List.length_map, List.length_range]

theorem length_manyTypes_le (k : Kind) : (manyTypes k).length ≤ 65537 := by
  cases k with
  | stringData | stringId | typeId => exact Nat.le_of_eq (length_manyTypes (by simp))
  | _ => exact Nat.le_of_ble_eq_true rfl

theorem closed_manyTypes (k : Kind) : ∀ x ∈ manyTypes k,
    Each (fun j h => j.isSingleton = false ∧ h.id < (manyTypes j).length)
      (Content.handles k x) := by
  have hlt {j : Kind} {i : Nat} (hj : j = .stringData ∨ j = .stringId ∨ j = .typeId)
      (hi : i < 65537) : j.isSingleton = false ∧ i < (manyTypes j).length := by
    refine ⟨?_, by rwa [length_manyTypes hj]⟩
    rcases hj with rfl | rfl | rfl <;> rfl
  intro x hx
  cases k with
  | stringData => exact each_nil
  | stringId =>
    obtain ⟨i, hi, rfl⟩ := List.mem_map.1 hx
    exact each_cons.2 ⟨hlt (.inl rfl) (List.mem_range.1 hi), each_nil⟩
  | typeId =>
    obtain ⟨i, hi, rfl⟩ := List.mem_map.1 hx
    exact each_cons.2 ⟨hlt (.inr (.inl rfl)) (List.mem_range.1 hi), each_nil⟩
  | fieldId =>
    obtain rfl := List.mem_singleton.1 hx
    exact each_cons.2 ⟨hlt (.inr (.inr rfl)) (by decide), each_cons.2
      ⟨hlt (.inr (.inr rfl)) (by decide),
        each_cons.2 ⟨hlt (.inr (.inl rfl)) (by decide), each_nil⟩⟩⟩
  | _ => exact absurd hx List.not_mem_nil

/-! ### How long its image is -/

/-- Items of limited length end at a limited offset. -/
theorem Stacked.finish_le (hc : c.SectionsWellFormed) (h : c.Stacked ks start finish)
    (hwidth : ∀ (k : Kind) (x : Content k) (size : Nat), x ∈ (c.sectionOf k).items.toList →
      Content.size c.places k x = .ok size → size ≤ width) :
    finish ≤ start + (ks.map fun k => (c.sectionOf k).items.size).sum * (width + 3) := by
  induction ks generalizing start with
  | nil =>
    obtain rfl : start = finish := h
    exact Nat.le_add_right ..
  | cons k ks ih =>
    obtain ⟨sizes, hsizes, -, h⟩ := h
    have hnext := Section.finishFrom_le (k := k) start sizes
    have hsum : (sizes.map (· + 3)).sum ≤ sizes.length * (width + 3) := by
      have := List.sum_le_card_nsmul (sizes.map (· + 3)) (width + 3) fun n hn => by
        obtain ⟨size, hsize, rfl⟩ := List.mem_map.1 hn
        obtain ⟨id, -, hid⟩ := exists_of_mem_mapM hsizes hsize
        obtain ⟨x, hx, hsize⟩ := bind_eq_ok.1 hid
        rw [Section.get_eq_ok, Section.get?, ← Array.getElem?_toList] at hx
        exact Nat.add_le_add_right (hwidth k x size (List.mem_of_getElem? hx) hsize) 3
      rwa [List.length_map] at this
    have := ih h
    rw [Section.next_layoutOf] at this
    rw [length_of_mapM hsizes, (hc k).length_order] at hsum
    rw [List.map_cons, List.sum_cons, Nat.add_mul]
    omega

theorem size_of_mem_manyTypes {places : Places} {size : Nat} (hk : k.isSingleton = false)
    (hx : x ∈ manyTypes k) (hsize : Content.size places k x = .ok size) : size ≤ 232 := by
  cases k with
  | stringData =>
    obtain ⟨i, -, rfl⟩ := List.mem_map.1 hx
    obtain rfl := Except.ok.inj hsize
    have hunits : (Utf16.units (manyDescriptor i)).length ≤ 6 := by
      simp only [Utf16.units, manyDescriptor, String.toList_ofList, List.flatMap_cons,
        List.flatMap_nil, List.length_append, List.length_nil]
      have hlength (c : Char) : (Utf16.unitsOfChar c).length ≤ 2 := by
        rw [Utf16.unitsOfChar]
        split <;> simp
      have hfirst := hlength 'L'
      have hmiddle := hlength (Char.ofNat (65536 + i))
      have hlast := hlength ';'
      omega
    have hencode := ModifiedUtf8.length_encode_le (Utf16.units (manyDescriptor i))
    have hone := Leb128.unsignedSize_le (n := (Utf16.units (manyDescriptor i)).length) (by omega)
    simp only [StringData.size, StringData.ofText]
    omega
  | stringId | typeId | fieldId =>
    rw [Content.size_of_entrySize? rfl] at hsize
    cases hsize
    decide
  | header | mapList => cases hk
  | _ => exact absurd hx List.not_mem_nil

/-- Items are of limited length in a layout of the container. -/
theorem size_le_of_laidOut {dataEnd : Nat} (hd : d.LaidOut dataEnd) (hs : d.HasSingletons)
    (hitems : ∀ k, k.isSingleton = false → (d.sectionOf k).items.toList = manyTypes k)
    {size : Nat} (hx : x ∈ (d.sectionOf k).items.toList)
    (hsize : Content.size d.places k x = .ok size) : size ≤ 232 := by
  cases hk : k.isSingleton with
  | false =>
    rw [hitems k hk] at hx
    exact size_of_mem_manyTypes hk hx hsize
  | true =>
    cases k with
    | header =>
      obtain rfl := Except.ok.inj hsize
      decide
    | mapList =>
      obtain rfl := Except.ok.inj hsize
      obtain ⟨i, hi⟩ := List.mem_iff_getElem?.1 hx
      rw [Array.getElem?_toList] at hi
      have hfirst : (d.sectionOf .mapList).get? ⟨i⟩ = some x := hi
      rw [id_of_size_one hs.map hfirst, hs.get?_map] at hfirst
      obtain rfl := Option.some.inj hfirst
      have hrows := length_mapEntries_le d d.header.mapOffset
      simp only [MapList.size, hd.entries, MapEntry.length]
      omega
    | _ => cases hk

/-- Nothing keeps a container from having more types than a field of 16 bits can tell apart: the
class of a field is then written as the first type, although it is the last. -/
theorem exists_truncated : ∃ (b c d : Container) (fileSize : Nat) (image : Image)
    (h : Handle .fieldId) (x : FieldId) (start : Nat), b.Reachable ∧ b.Closed ∧
    b.place = .ok (c, fileSize) ∧ c.write = .ok (d, image) ∧ image.size < 2 ^ 32 ∧
    c.get h = .ok x ∧ ⟨0, 2, x.owner.any⟩ ∈ Content.indexFields .fieldId x ∧
    (c.sectionOf .fieldId).offsetOf? h = some start ∧ c.position? x.owner = some 65536 ∧
    storedIndex image start ⟨0, 2, x.owner.any⟩ = 0 := by
  obtain ⟨b, hb, hitems⟩ := exists_isFresh manyTypes nodup_manyTypes check_of_mem_manyTypes
  have hclosed := closed_of_items hitems closed_manyTypes
  have hcoherent := hb.reachable.coherent
  have hcode : (b.sectionOf .code).items.size = 0 := by
    rw [← Array.length_toList, hitems .code rfl]
    rfl
  obtain ⟨c, fileSize, hplace⟩ := exists_place_of_codeless hcoherent.wellFormed hclosed hcode
  obtain ⟨hlays, hsize, dataEnd, hlaid⟩ :=
    laidOut_of_placeWithin hcoherent.wellFormed hcoherent.singletons hplace
  have hclosed' := closed_of_laysOut hcoherent.wellFormed hclosed hlays
  obtain ⟨image, himage⟩ := exists_image (hcoherent.place hplace) hclosed' hlaid
  have hwrite := write_eq_ok.2 ⟨congrArg Stage.isPlaced hlays.stage, himage, rfl⟩
  have hitems' (k : Kind) (hk : k.isSingleton = false) :
      (c.sectionOf k).items.toList = manyTypes k := by
    rw [hlays.items k hk, hitems k hk]
  have hfield : c.get (⟨0⟩ : Handle .fieldId) = .ok ⟨⟨65536⟩, ⟨65536⟩, ⟨0⟩⟩ := by
    rw [get_eq_ok, Section.get?, ← Array.getElem?_toList, hitems' .fieldId rfl]
    rfl
  obtain ⟨start, n, hstart, hn, hstored⟩ := exists_storedIndex (hb.reachable.place hplace) hwrite
    hfield (List.mem_cons_self ..)
  obtain rfl : n = 65536 := (hcoherent.place hplace).numbers .typeId _ rfl n hn
  refine ⟨b, c, _, fileSize, image, ⟨0⟩, _, start, hb.reachable, hclosed, hplace, hwrite, ?_,
    hfield, List.mem_cons_self .., hstart, hn, hstored⟩
  have hfinish := (hlaid.stacked hlays.wellFormed hlays.singletons).finish_le hlays.wellFormed
    fun k x size hx => size_le_of_laidOut hlaid hlays.singletons hitems' hx
  rw [(of_image hlays.wellFormed hlays.singletons hlaid himage).1]
  refine Nat.lt_of_le_of_lt hfinish ?_
  have hcount (n : Nat) (hn : n ∈ fileOrder.map fun k => (c.sectionOf k).items.size) :
      n ≤ 65537 := by
    obtain ⟨k, -, rfl⟩ := List.mem_map.1 hn
    cases hk : k.isSingleton with
    | false =>
      rw [← Array.length_toList, hitems' k hk]
      exact length_manyTypes_le k
    | true =>
      rw [hlays.singletons.size_one hk]
      decide
  have hsum := List.sum_le_card_nsmul _ _ hcount
  rw [List.length_map, show fileOrder.length = 18 from rfl, smul_eq_mul] at hsum
  omega

end Container

end DexContainer
