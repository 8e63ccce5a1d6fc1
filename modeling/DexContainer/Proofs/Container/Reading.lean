import Mathlib.Data.List.Perm.Subperm
import DexContainer.Proofs.Container.Directory
import DexContainer.Proofs.Section.Reading

/-! Reading a container back. An image that holds the sections of a container as they were laid out
is read section by section; every handle is found anew, by its number or by the offset that it was
written as. Main statement: `exists_of_stored`, such an image is accepted, and what is read is a
copy of the container. -/

namespace DexContainer

variable {k : Kind} {places : Places} {keeps : Bool} {ρ : Renaming}

/-! ### Sections -/

namespace Section

variable {s : Section k} {image : Image} {first : Nat} {bss : List Bytes}

/-- A section that holds an item starts at the aligned offset that is recorded for it. -/
theorem IsStored.aligned (h : s.IsStored places image first bss) (hne : bss ≠ []) :
    s.offset? = some (alignUp first k.alignment) ∧
      s.IsStored places image (alignUp first k.alignment) bss := by
  have hsizes : bss.map List.length ≠ [] := by simpa using hne
  refine ⟨?_, h.contents, ?_, ?_⟩
  · rw [h.stands.offset?, layoutOf, List.isEmpty_eq_false_iff.2 hsizes]
    rfl
  · rw [layoutOf_alignUp hsizes]
    exact h.stands
  · have hspan := h.span
    have hle := le_alignUp k first
    cases bss with
    | nil => exact absurd rfl hne
    | cons bs bss =>
      rw [spanOf, List.append_assoc] at hspan
      have hspan := drop_of_prefix_drop hspan
      have hstart : first + (List.replicate (padding first k.alignment) (0 : UInt8)).length =
          alignUp first k.alignment := by
        rw [List.length_replicate, padding]
        omega
      rw [hstart] at hspan
      simpa [spanOf, padding] using hspan

theorem IsStored.length_le {bs : Bytes} (h : s.IsStored places image first bss) (hbs : bs ∈ bss) :
    bs.length ≤ image.size := by
  obtain ⟨i, hi, rfl⟩ := List.getElem_of_mem hbs
  have hi' : i < (startsFrom k first (bss.map List.length)).length := by simpa using hi
  have hle := ((stands_of_spanOf h.span).get hi' hi).length_le
  have hsize : image.toList.length = image.size := Array.length_toList
  rw [List.length_drop] at hle
  simp only [List.get_eq_getElem] at hle
  omega

theorem IsStored.isWritten (hs : s.WellFormed) (h : s.IsStored places image first bss)
    (hd : k.alignment ∣ first) (hreadable : s.IsReadable places) (hlt : image.size < 2 ^ 32)
    (hpositions : ∀ x : Handle k, places.position? k x = s.position? x) :
    s.IsWritten places first bss :=
  ⟨hs, hd, h.contents, h.stands, hreadable,
    fun _ hbs => Nat.lt_of_le_of_lt (h.length_le hbs) hlt, hpositions⟩

/-- A section without items is a copy of any other one. -/
theorem copies_empty (hs : s.WellFormed) (hsize : s.items.size = 0) {start : Nat}
    {sizes : List Nat} (hsizes : s.sizes places = .ok sizes)
    (hstands : s.Stands (layoutOf k start sizes)) : s.Copies ρ keeps {} := by
  have horder : s.order.toList = [] := by
    apply List.eq_nil_of_length_eq_zero
    rw [hs.length_order, hsize]
  have hlen := length_of_mapM hsizes
  rw [horder, List.length_nil, List.length_eq_zero_iff] at hlen
  subst hlen
  refine ⟨by rw [horder]; rfl, fun id hid => ?_, fun id hid => ?_, by rw [hsize]; rfl,
    hstands.offset?.symm, hstands.byteSize.symm⟩
  · rw [horder] at hid
    exact absurd hid (by simp)
  · rw [horder] at hid
    exact absurd hid (by simp)

/-- The copy of a singleton. -/
theorem Copies.singleton {t : Section k} {x : Content k} (h : s.Copies ρ keeps t)
    (hs : s.WellFormed) (hsize : s.items.size = 1) (hx : s.get? ⟨0⟩ = some x) :
    t.get? ⟨0⟩ = some (Content.asRead keeps k (Content.rename ρ k x)) := by
  have hmem : 0 ∈ s.order.toList := hs.mem_order.2 (by omega)
  have hget := h.items 0 hmem
  rw [hx, Option.map_some] at hget
  rwa [Container.id_of_size_one (h.size.trans hsize) hget] at hget

end Section

namespace Container

variable {c : Container} {o : Options} {image : Image} {s t : Source} {g : Container}
  {dataEnd : Nat}

/-- A container that stands in an image, and whose items can be read back. -/
structure IsStored (c : Container) (image : Image) : Prop where
  coherent : c.Coherent
  laidOut : ∃ dataEnd, c.LaidOut dataEnd
  encodable : ∀ (k : Kind) (h : Handle k) (x : Content k), k.isSingleton = false →
    (c.sectionOf k).get? h = some x → Content.IsEncodable k x
  sections : ∀ k, ∃ first bss, (c.sectionOf k).IsStored c.places image first bss
  size : image.size = c.header.fileSize
  short : image.size < 2 ^ 32

theorem IsStored.bounded (h : c.IsStored image) : c.places.Bounded := by
  obtain ⟨dataEnd, hlaid⟩ := h.laidOut
  exact bounded_of_laidOut h.coherent.wellFormed h.coherent.singletons hlaid (h.size ▸ h.short)

theorem LaidOut.header_isEncodable (hc : c.Coherent) (h : c.LaidOut dataEnd)
    (hshort : c.header.fileSize < 2 ^ 32) : c.header.IsEncodable := by
  have hmap := h.mapOffset_lt hc.wellFormed hc.singletons
  have hdata := Nat.le_trans h.data.le h.le_mapOffset
  refine ⟨hc.header, hshort, by omega, ?_, by omega⟩
  rw [h.dataSize]
  omega

theorem IsStored.header_isEncodable (h : c.IsStored image) : c.header.IsEncodable := by
  obtain ⟨dataEnd, hlaid⟩ := h.laidOut
  exact hlaid.header_isEncodable h.coherent (h.size ▸ h.short)

theorem IsStored.isReadable_of_ne (h : c.IsStored image) (hk : k.isSingleton = false) :
    (c.sectionOf k).IsReadable c.places := fun x y hy =>
  ⟨h.encodable k x y hk hy, ((h.coherent.sections k).items x y hy).check,
    fun z _ => h.coherent.numbers z.1 z.2⟩

theorem IsStored.header_offset? (h : c.IsStored image) :
    (c.sectionOf .header).offset? = some 0 := by
  obtain ⟨dataEnd, hlaid⟩ := h.laidOut
  exact hlaid.header_offset? h.coherent.wellFormed h.coherent.singletons

theorem IsStored.map_offset? (h : c.IsStored image) :
    (c.sectionOf .mapList).offset? = some c.header.mapOffset := by
  obtain ⟨dataEnd, hlaid⟩ := h.laidOut
  exact hlaid.map_offset? h.coherent.wellFormed h.coherent.singletons

theorem IsStored.mapOffset_lt (h : c.IsStored image) : c.header.mapOffset < image.size := by
  obtain ⟨dataEnd, hlaid⟩ := h.laidOut
  have := hlaid.mapOffset_lt h.coherent.wellFormed h.coherent.singletons
  rw [h.size]
  omega

theorem IsStored.offset_le (h : c.IsStored image) (k : Kind) :
    (c.sectionOf k).offset?.getD 0 ≤ image.size := by
  obtain ⟨dataEnd, hlaid⟩ := h.laidOut
  exact Nat.le_trans (hlaid.offset_le h.coherent.wellFormed h.coherent.singletons k)
    (Nat.le_of_lt h.mapOffset_lt)

theorem IsStored.map_isEncodable (h : c.IsStored image) : c.map.IsEncodable := by
  obtain ⟨dataEnd, hlaid⟩ := h.laidOut
  exact hlaid.map_isEncodable h.coherent.wellFormed h.coherent.singletons (h.size ▸ h.short)

theorem IsStored.isReadable (h : c.IsStored image) (k : Kind) :
    (c.sectionOf k).IsReadable c.places := by
  cases hk : k.isSingleton with
  | false => exact h.isReadable_of_ne hk
  | true =>
    intro x y hy
    have hs := h.coherent.singletons
    obtain rfl := id_of_size_one (hs.size_one hk) hy
    cases k with
    | header =>
      rw [hs.get?_header] at hy
      cases hy
      exact ⟨h.header_isEncodable, rfl, each_nil⟩
    | mapList =>
      rw [hs.get?_map] at hy
      cases hy
      exact ⟨h.map_isEncodable, rfl, each_nil⟩
    | _ => cases hk

/-! ### Sections of a container -/

/-- How far reading has come: the sections that are done are copies, under every renaming that the
references met so far allow. -/
structure Progress (c : Container) (image : Image) (keeps : Bool) (done : Kind → Prop) (s : Source)
    (g : Container) : Prop where
  image : s.image = image
  keepsSigned : s.keepsSigned = keeps
  tracks : s.references.Tracks c.places
  copied : ∀ k, done k → ∀ ρ, s.references.Gives c.places ρ →
    (c.sectionOf k).Copies ρ keeps (g.sectionOf k)
  fresh : ∀ k, k.isSingleton = false → ¬done k → g.sectionOf k = {}

variable {done : Kind → Prop}

theorem progress_empty (c : Container) (o : Options) (image : Image) :
    Progress c image o.preserveSignedRegisters (fun _ => False)
      { image, keepsSigned := o.preserveSignedRegisters } (empty o) := by
  refine ⟨rfl, rfl, References.tracks_empty, fun k hk => absurd hk id, fun k hk _ => ?_⟩
  cases k <;> first | rfl | cases hk

/-- A section that holds an item is read from the offset that is recorded for it. -/
theorem Progress.decodeSection (hc : c.IsStored image) (h : Progress c image keeps done s g)
    (hsize : (c.sectionOf k).items.size ≠ 0) :
    ∃ t e, g.decodeSection k ((c.sectionOf k).offset?.getD 0) (c.sectionOf k).items.size s =
        .ok e t ∧ Progress c image keeps (fun j => done j ∨ j = k) t e := by
  obtain ⟨first, bss, hstored⟩ := hc.sections k
  have hwf := hc.coherent.wellFormed k
  have hlen := hstored.length
  have horder := hwf.length_order
  rw [Array.length_toList] at horder
  have hne : bss ≠ [] := by
    rintro rfl
    rw [List.length_nil] at hlen
    omega
  obtain ⟨hoffset, hstored⟩ := hstored.aligned hne
  have hle := hc.offset_le k
  rw [hoffset, Option.getD_some] at hle ⊢
  have hwritten := hstored.isWritten hwf (Section.dvd_alignUp k first) (hc.isReadable k) hc.short
    fun _ => rfl
  obtain ⟨tail, htail⟩ := hstored.span
  generalize alignUp first k.alignment = p at *
  obtain ⟨x, q, r, hrun, hextends, hr, -, hcopies⟩ := hwritten.decode_of_contents
    hc.bounded hc.coherent.singletons.size_one
      (rfl : ({ s with position := p } : Source).position = p)
    (by rw [h.image]; exact hle) (by rw [Source.rest, h.image]; exact htail.symm) h.tracks
  refine ⟨{ s with position := q, references := r }, g.modifySection k fun _ => x, ?_, ?_⟩
  · rw [Container.decodeSection,
      Decoder.bind_of_ok (a := ()) (Section.seek_eq_ok.2 ⟨by rw [h.image]; exact hle, rfl⟩),
      Decoder.bind_of_ok hrun]
    rfl
  · refine ⟨h.image, h.keepsSigned, hr, fun j hj ρ hρ => ?_, fun j hj hdone => ?_⟩
    · by_cases hjk : j = k
      · subst hjk
        rw [sectionOf_modifySection_self, ← h.keepsSigned]
        exact hcopies ρ hρ
      · rw [sectionOf_modifySection_of_ne _ _ hjk]
        exact h.copied j (hj.resolve_right hjk) ρ (hρ.anti hextends)
    · rw [not_or] at hdone
      rw [sectionOf_modifySection_of_ne _ _ hdone.2]
      exact h.fresh j hj hdone.1

/-- A section has a row if it holds an item, and stays empty otherwise. -/
theorem Progress.decodeRow (hc : c.IsStored image) (h : Progress c image keeps done s g)
    (k : Kind) :
    ∃ t e, g.decodeRow ((c.mapEntries c.header.mapOffset).map MapEntry.asRead)
        c.header.mapOffset k s =
        .ok e t ∧ Progress c image keeps (fun j => done j ∨ j = k) t e := by
  have hs := hc.coherent.singletons
  have hrow := rowOf_mapEntries hs hc.header_offset? hc.map_offset? k
  simp only [Container.decodeRow]
  rw [hrow]
  by_cases hsize : (c.sectionOf k).items.size = 0
  · rw [if_pos hsize]
    refine ⟨s, g, rfl, h.image, h.keepsSigned, h.tracks, fun j hj ρ hρ => ?_, fun j hj hdone => ?_⟩
    · by_cases hdone : done j
      · exact h.copied j hdone ρ hρ
      · obtain rfl := hj.resolve_left hdone
        have hsingle : j.isSingleton = false := by
          rw [← Bool.not_eq_true]
          intro hj
          rw [hs.size_one hj] at hsize
          cases hsize
        obtain ⟨dataEnd, hlaid⟩ := hc.laidOut
        obtain ⟨_, _, hsizes, hstands⟩ := hlaid.stands j
        rw [h.fresh j hsingle hdone]
        exact Section.copies_empty (hc.coherent.wellFormed j) hsize hsizes hstands
    · exact h.fresh j hj fun hdone' => hdone (.inl hdone')
  · rw [if_neg hsize]
    exact h.decodeSection hc hsize

theorem Progress.foldlM (hc : c.IsStored image) (h : Progress c image keeps done s g)
    (ks : List Kind) :
    ∃ t e, ks.foldlM (Container.decodeRow ((c.mapEntries c.header.mapOffset).map MapEntry.asRead)
        c.header.mapOffset) g s = .ok e t ∧
      Progress c image keeps (fun j => done j ∨ j ∈ ks) t e := by
  induction ks generalizing done s g with
  | nil => exact ⟨s, g, rfl, by simpa using h⟩
  | cons k ks ih =>
    obtain ⟨t, e, hrun, he⟩ := h.decodeRow hc k
    obtain ⟨u, f, hrun', hf⟩ := ih he
    refine ⟨u, f, ?_, ?_⟩
    · rw [List.foldlM_cons, Decoder.bind_of_ok hrun, hrun']
    · simpa only [List.mem_cons, or_assoc] using hf

/-! ### The container -/

/-- There are no more slots than items, because every slot stands for the position of an item. -/
theorem slotCount_le {r : References} (hwf : (c.sectionOf k).WellFormed)
    (hr : r.Tracks c.places) : r.slotCount k ≤ (c.sectionOf k).items.size := by
  have hslot : ∀ i < r.slotCount k, r.slots[(k, r.slotOffset k i)]? = some i :=
    fun i hi => (hr.sound.slot_iff k _ i).2 ⟨hi, rfl⟩
  have hnodup : ((List.range (r.slotCount k)).map fun i => some (r.slotOffset k i)).Nodup := by
    refine List.Nodup.map_on (fun i hi j hj hij => ?_) List.nodup_range
    have hi := hslot i (List.mem_range.1 hi)
    have hj := hslot j (List.mem_range.1 hj)
    rw [Option.some.inj hij, hj] at hi
    exact (Option.some.inj hi).symm
  have hsub : ((List.range (r.slotCount k)).map fun i => some (r.slotOffset k i)) ⊆
      (c.sectionOf k).positions.toList := by
    intro n hn
    obtain ⟨i, hi, rfl⟩ := List.mem_map.1 hn
    obtain ⟨x, hx⟩ := hr.exists_of_slot k _ i (hslot i (List.mem_range.1 hi))
    have hx : (c.sectionOf k).position? x = some (r.slotOffset k i) := hx
    exact Array.mem_toList_iff.2 (Array.mem_of_getElem? (Section.position?_eq_some_iff.1 hx))
  have hle := (List.subperm_of_subset hnodup hsub).length_le
  rwa [List.length_map, List.length_range, Array.length_toList, hwf.positions] at hle

theorem checkReferences_of_tracks (hc : c.IsStored image) {r : References}
    (hr : r.Tracks c.places) (k : Kind)
    (hsize : (g.sectionOf k).items.size = (c.sectionOf k).items.size) :
    g.checkReferences r k = .ok () := by
  have hoffsets : r.checkOffsets k (g.sectionOf k).size = .ok () := by
    have hle := slotCount_le (hc.coherent.wellFormed k) hr
    rw [References.checkOffsets, Section.size, hsize, if_neg (Nat.not_lt.2 hle)]
    rfl
  have hindices : r.checkIndices k (g.sectionOf k).size = .ok () := by
    rw [References.checkIndices]
    cases hm : r.highest[k]? with
    | none => rfl
    | some m =>
      obtain ⟨dataEnd, hlaid⟩ := hc.laidOut
      obtain ⟨x, hx⟩ := hr.exists_of_highest k m hm
      have hlt := (hlaid.index_within hc.coherent.wellFormed hc.coherent.singletons
        (hr.sound.isIndexed_of_highest k m hm) hx).1
      simp only [Section.size, hsize]
      rw [if_neg (Nat.not_le.2 hlt)]
      rfl
  rw [checkReferences, hindices, ok_bind, hoffsets]

theorem IsStored.length_le (h : c.IsStored image) : Header.length ≤ image.size := by
  obtain ⟨dataEnd, hlaid⟩ := h.laidOut
  have htables := (hlaid.header_stands h.coherent.wellFormed h.coherent.singletons).le
  have hmap := h.mapOffset_lt
  have hdata := Nat.le_trans hlaid.data.le hlaid.le_mapOffset
  omega

/-- The header that was read is the header. -/
theorem Progress.header_eq (hc : c.IsStored image) (h : Progress c image keeps done s g)
    (hdone : done .header) : g.header = c.header := by
  have hs := hc.coherent.singletons
  have hcopies := h.copied .header hdone _ (References.gives_handlesRead _ _)
  exact Container.header_eq
    (hcopies.singleton (hc.coherent.wellFormed _) hs.header hs.get?_header)

/-- The map that was read holds the directory. -/
theorem Progress.map_eq (hc : c.IsStored image) (h : Progress c image keeps done s g)
    (hdone : done .mapList) :
    g.map = ⟨(c.mapEntries c.header.mapOffset).map MapEntry.asRead⟩ := by
  obtain ⟨dataEnd, hlaid⟩ := hc.laidOut
  have hs := hc.coherent.singletons
  have hcopies := h.copied .mapList hdone _ (References.gives_handlesRead _ _)
  rw [Container.map_eq (hcopies.singleton (hc.coherent.wellFormed _) hs.map hs.get?_map),
    hlaid.entries]
  rfl

/-- The header says that there is a map. -/
theorem IsStored.mapOffset_ne_zero (hc : c.IsStored image) : c.header.mapOffset ≠ 0 := by
  obtain ⟨dataEnd, hlaid⟩ := hc.laidOut
  have htables := (hlaid.header_stands hc.coherent.wellFormed hc.coherent.singletons).le
  have hdata := Nat.le_trans hlaid.data.le hlaid.le_mapOffset
  have hlength : 0 < Header.length := by decide
  omega

/-- Every row of the directory lies within the image. -/
theorem IsStored.checkBounds (hc : c.IsStored image) {e : MapEntry}
    (he : e ∈ (c.mapEntries c.header.mapOffset).map MapEntry.asRead) :
    checkBounds e.kind e.offset e.count image.size = .ok () := by
  obtain ⟨dataEnd, hlaid⟩ := hc.laidOut
  rw [hc.size]
  exact checkBounds_of_laidOut hc.coherent.wellFormed hc.coherent.singletons hlaid he

theorem row_mapList_mem (c : Container) (mapOffset : Nat) :
    c.row mapOffset .mapList ∈ (c.mapEntries mapOffset).map MapEntry.asRead :=
  (map_asRead_mapEntries_perm c _).mem_iff.2 (List.mem_map_of_mem (mem_listed.2 (.inl rfl)))

/-- An image that holds a container is accepted, and what is read is a copy of it. -/
theorem exists_of_stored (hc : c.IsStored image) (o : Options)
    (hverify : o.verifyIntegrity = true → Stamp.verify image = .ok ()) :
    ∃ g ρ, (∀ r, ofImage r image o = .ok g) ∧
      ∀ k, (c.sectionOf k).Copies ρ o.preserveSignedRegisters (g.sectionOf k) := by
  have hs := hc.coherent.singletons
  obtain ⟨s1, c1, h1, p1⟩ := (progress_empty c o image).decodeSection (k := .header) hc
    (by rw [hs.header]; decide)
  obtain ⟨s2, c2, h2, p2⟩ := p1.decodeSection (k := .mapList) hc (by rw [hs.map]; decide)
  obtain ⟨t, g, h3, p3⟩ := p2.foldlM hc Kind.readOrder
  rw [hc.header_offset?, hs.header] at h1
  rw [hc.map_offset?, hs.map] at h2
  have hheader := p1.header_eq hc (.inr rfl)
  have hmap := p2.map_eq hc (.inr rfl)
  have hcopies (k : Kind) := p3.copied k (.inr (Kind.mem_readOrder k)) _
    (References.gives_handlesRead _ _)
  refine ⟨g, t.references.handlesRead c.places,
    fun r => ofImage_eq_ok.2 ⟨hc.length_le, hverify, t, ?_⟩, hcopies⟩
  refine decode_eq_ok.2 ⟨c1, s1, c2, s2, h1, ?_, ?_, ?_, ?_, ?_, ?_, fun k => ?_⟩
  · rw [hheader]
    exact hc.mapOffset_ne_zero
  · rw [hheader]
    exact hc.checkBounds (row_mapList_mem c _)
  · rw [hheader]
    exact h2
  · rw [hmap]
    exact kinds_nodup c c.header.mapOffset
  · rw [hmap]
    exact fun e he => hc.checkBounds he
  · rw [hheader, hmap]
    exact h3
  · exact checkReferences_of_tracks hc p3.tracks k (hcopies k).size

end Container

end DexContainer
