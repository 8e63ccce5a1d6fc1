import DexContainer.Proofs.Container.Arrangement
import DexContainer.Proofs.Container.Interning

/-! The directory of a container that is laid out. It has one row for every section that holds an
item, the rows stand in the order of the sections, and the map and the header of the written file
repeat them. Main statements: `perm_of_laidOut`, the rows are those of the sections that hold an
item; `pairwise_of_laidOut`, they stand in the order of the file and their sections share no byte;
and `directory_of_place`, all of it after a layout and in the file. -/

namespace DexContainer.Container

variable {c d : Container} {k : Kind} {ks : List Kind} {hs : List AnyHandle}
  {start finish cursor dataEnd : Nat}

/-! ### Spans of sections -/

theorem Chained.last (h : c.Chained hs cursor finish) {a : AnyHandle} (ha : hs.getLast? = some a) :
    ∃ start size, c.Takes a.2 start size ∧ start + size = finish := by
  induction hs generalizing cursor with
  | nil => cases ha
  | cons b hs ih =>
    obtain ⟨size, hb, h⟩ := h
    cases hs with
    | nil =>
      obtain rfl : b = a := by simpa using ha
      exact ⟨_, size, hb, h⟩
    | cons b' hs => exact ih h (by simpa using ha)

/-- A section starts with its first item and ends with its last one. -/
theorem Stacked.exists_span (hc : c.SectionsWellFormed) (hs : c.HasSingletons)
    (h : c.Stacked ks start finish) (hk : k ∈ ks) (hne : (c.sectionOf k).size ≠ 0) :
    ∃ x y first size start' size', (c.sectionOf k).handles.head? = some x ∧
      c.Takes x first size ∧ (c.sectionOf k).handles.getLast? = some y ∧ c.Takes y start' size' ∧
      (c.sectionOf k).offset? = some first ∧
      first + (c.sectionOf k).byteSize = start' + size' ∧ 0 < (c.sectionOf k).byteSize := by
  obtain ⟨begin, sizes, -, hsizes, hstands, -⟩ := h.stands hk
  have hchain := chained_of_stands (hc k) hs.size_one hsizes hstands
  have hlength : sizes.length = (c.sectionOf k).size := by
    rw [length_of_mapM hsizes, (hc k).length_order, Section.size]
  have hhandles : (c.sectionOf k).handles ≠ [] := by
    rw [← List.length_pos_iff, Section.handles, List.length_map, (hc k).length_order]
    exact Nat.pos_of_ne_zero hne
  have hsizes : sizes ≠ [] := by
    rintro rfl
    exact hne hlength.symm
  obtain ⟨hbase, hbytes⟩ := Section.span_layoutOf k begin hsizes
  rw [← hstands.offset?] at hbase
  rw [← hstands.byteSize] at hbytes
  have hx := List.head?_eq_some_head hhandles
  have hy := List.getLast?_eq_some_getLast hhandles
  generalize (c.sectionOf k).handles.head hhandles = x at hx
  generalize (c.sectionOf k).handles.getLast hhandles = y at hy
  obtain ⟨size, hfirst⟩ : ∃ size, c.Takes x (alignUp begin k.alignment) size :=
    hchain.head (by rw [List.head?_map, hx]; rfl)
  obtain ⟨start', size', hlast, hend⟩ : ∃ start size, c.Takes y start size ∧ start + size = _ :=
    hchain.last (by rw [List.getLast?_map, hy]; rfl)
  obtain ⟨_, _, hfirst', -, -, hle⟩ :=
    hchain.exists_takes (List.mem_map_of_mem (f := Handle.any) (List.mem_of_head? hx))
  obtain ⟨rfl, rfl⟩ := hfirst.unique hfirst'
  have hpos := hfirst.size_pos
  exact ⟨x, y, _, size, start', size', hx, hfirst, hy, hlast, hbase, hbytes.trans hend.symm,
    by omega⟩

/-- A section ends before the next one starts. -/
theorem Stacked.pairwise (h : c.Stacked ks start finish) : ks.Pairwise fun j k =>
    ∀ first first', (c.sectionOf j).offset? = some first → (c.sectionOf k).offset? = some first' →
      first + (c.sectionOf j).byteSize ≤ first' := by
  induction ks generalizing start with
  | nil => exact .nil
  | cons j ks ih =>
    obtain ⟨sizes, -, hstands, h⟩ := h
    refine .cons (fun k hk first first' hj hk' => ?_) (ih h)
    obtain ⟨begin, sizes', hle, -, hstands', -⟩ := h.stands hk
    have hsizes : sizes ≠ [] := by
      rintro rfl
      rw [hstands.offset?] at hj
      cases hj
    have hsizes' : sizes' ≠ [] := by
      rintro rfl
      rw [hstands'.offset?] at hk'
      cases hk'
    obtain ⟨hbase, hbytes⟩ := Section.span_layoutOf j start hsizes
    have hbase' := (Section.span_layoutOf k begin hsizes').1
    rw [← hstands.offset?, hj] at hbase
    rw [← hstands'.offset?, hk'] at hbase'
    rw [← hstands.byteSize] at hbytes
    obtain rfl := Option.some.inj hbase
    obtain rfl := Option.some.inj hbase'
    rw [hbytes]
    exact Nat.le_trans hle (Section.le_alignUp k begin)

/-! ### Rows -/

/-- The row of the map is that of its section. -/
theorem LaidOut.mapEntryOf_mapList (hc : c.SectionsWellFormed) (hs : c.HasSingletons)
    (h : c.LaidOut dataEnd) : c.mapEntryOf .mapList =
      ⟨.mapList, 1, c.header.mapOffset,
        MapList.size ⟨c.mapEntries c.header.mapOffset⟩⟩ := by
  obtain ⟨sizes, hsizes, hstands, -⟩ := h.map
  rw [Section.sizes_of_size_one (hc _) hs.map hs.get?_map] at hsizes
  cases hsizes
  have hbytes := hstands.byteSize
  rw [mapEntryOf, h.map_offset? hc hs, hbytes, Section.size, hs.map, ← h.entries]
  simp [Section.layoutOf, Section.finishFrom]

/-- The map ends the file. -/
theorem LaidOut.map_end (hc : c.SectionsWellFormed) (hs : c.HasSingletons) (h : c.LaidOut dataEnd) :
    c.header.mapOffset + MapList.size ⟨c.mapEntries c.header.mapOffset⟩ = c.header.fileSize := by
  obtain ⟨sizes, hsizes, -, hnext⟩ := h.map
  rw [Section.sizes_of_size_one (hc _) hs.map hs.get?_map] at hsizes
  cases hsizes
  rw [Section.next_layoutOf, Section.finishFrom, Section.finishFrom, h.entries, h.mapOffset,
    Section.alignUp_alignUp] at hnext
  rw [h.mapOffset]
  exact hnext

/-- The rows are those of the sections that hold an item. -/
theorem perm_of_laidOut (hc : c.SectionsWellFormed) (hs : c.HasSingletons) (h : c.LaidOut dataEnd) :
    c.map.entries.Perm (c.listed.map c.mapEntryOf) := by
  have hrow := h.mapEntryOf_mapList hc hs
  rw [h.entries]
  rw [listed, List.map_append, List.map_cons, List.map_nil, hrow, mapEntries, MapList.size,
    List.length_mergeSort, List.length_append]
  exact List.mergeSort_perm _ _

theorem kinds_of_laidOut (hc : c.SectionsWellFormed) (hs : c.HasSingletons)
    (h : c.LaidOut dataEnd) : (c.map.entries.map (·.kind)).Perm c.listed := by
  refine ((perm_of_laidOut hc hs h).map (·.kind)).trans (.of_eq ?_)
  rw [List.map_map]
  exact List.map_id _

theorem eq_mapEntryOf (hc : c.SectionsWellFormed) (hs : c.HasSingletons) (h : c.LaidOut dataEnd)
    {e : MapEntry} (he : e ∈ c.map.entries) :
    e = c.mapEntryOf e.kind ∧ (c.sectionOf e.kind).size ≠ 0 := by
  obtain ⟨k, hk, rfl⟩ := List.mem_map.1 ((perm_of_laidOut hc hs h).mem_iff.1 he)
  refine ⟨rfl, ?_⟩
  rcases mem_listed.1 hk with rfl | hk
  · exact Nat.ne_of_gt (Nat.lt_of_lt_of_eq Nat.one_pos hs.map.symm)
  · exact hk

/-- A row starts where its section starts and spans it. -/
theorem exists_span_of_row (hc : c.SectionsWellFormed) (hs : c.HasSingletons)
    (h : c.LaidOut dataEnd) {e : MapEntry} (he : e ∈ c.map.entries) :
    ∃ x y size start' size', (c.sectionOf e.kind).handles.head? = some x ∧
      c.Takes x e.offset size ∧ (c.sectionOf e.kind).handles.getLast? = some y ∧
      c.Takes y start' size' ∧ (c.sectionOf e.kind).offset? = some e.offset ∧
      e.offset + e.byteSize = start' + size' ∧ 0 < e.byteSize := by
  obtain ⟨heq, hne⟩ := eq_mapEntryOf hc hs h he
  obtain ⟨x, y, first, size, start', size', hx, hfirst, hy, hlast, hoffset, hend, hpos⟩ :=
    (h.stacked hc hs).exists_span hc hs (mem_fileOrder e.kind) hne
  have hrow : e.offset = first := by
    rw [heq, mapEntryOf]
    exact congrArg (Option.getD · 0) hoffset
  have hbytes : e.byteSize = (c.sectionOf e.kind).byteSize := congrArg MapEntry.byteSize heq
  rw [← hrow] at hfirst hoffset hend
  rw [← hbytes] at hend hpos
  exact ⟨x, y, size, start', size', hx, hfirst, hy, hlast, hoffset, hend, hpos⟩

/-- Of the sections of two rows the one ends before the other starts. -/
theorem apart_of_rows (hc : c.SectionsWellFormed) (hs : c.HasSingletons) (h : c.LaidOut dataEnd)
    {e f : MapEntry} (he : e ∈ c.map.entries) (hf : f ∈ c.map.entries) (hne : e.kind ≠ f.kind) :
    e.offset + e.byteSize ≤ f.offset ∨ f.offset + f.byteSize ≤ e.offset := by
  obtain ⟨-, -, -, -, -, -, -, -, -, he', -⟩ := exists_span_of_row hc hs h he
  obtain ⟨-, -, -, -, -, -, -, -, -, hf', -⟩ := exists_span_of_row hc hs h hf
  have hebytes : e.byteSize = (c.sectionOf e.kind).byteSize :=
    congrArg MapEntry.byteSize (eq_mapEntryOf hc hs h he).1
  have hfbytes : f.byteSize = (c.sectionOf f.kind).byteSize :=
    congrArg MapEntry.byteSize (eq_mapEntryOf hc hs h hf).1
  let apart (j k : Kind) : Prop := ∀ first first', (c.sectionOf j).offset? = some first →
    (c.sectionOf k).offset? = some first' → first + (c.sectionOf j).byteSize ≤ first' ∨
      first' + (c.sectionOf k).byteSize ≤ first
  have : Std.Symm apart := ⟨fun j k hjk first first' hj hk => (hjk first' first hk hj).symm⟩
  have hpairwise : fileOrder.Pairwise apart := (h.stacked hc hs).pairwise.imp
    fun hjk first first' hj hk => .inl (hjk first first' hj hk)
  rw [hebytes, hfbytes]
  exact hpairwise.forall (mem_fileOrder _) (mem_fileOrder _) hne _ _ he' hf'

/-- The rows stand in the order of their sections. -/
theorem pairwise_of_laidOut (hc : c.SectionsWellFormed) (hs : c.HasSingletons)
    (h : c.LaidOut dataEnd) : c.map.entries.Pairwise fun e f =>
      e.offset < f.offset ∧ e.offset + e.byteSize ≤ f.offset := by
  have hsorted : c.map.entries.Pairwise fun e f => decide (e.offset ≤ f.offset) = true := by
    rw [h.entries]
    exact List.pairwise_mergeSort (by simp; omega) (by simp; omega) _
  have hdistinct : c.map.entries.Pairwise fun e f => e.kind ≠ f.kind :=
    List.pairwise_map.1 ((kinds_of_laidOut hc hs h).nodup_iff.2 (listed_nodup c))
  refine (hsorted.and hdistinct).imp_of_mem fun {e f} he hf hef => ?_
  obtain ⟨-, -, -, -, -, -, -, -, -, -, -, hepos⟩ := exists_span_of_row hc hs h he
  obtain ⟨-, -, -, -, -, -, -, -, -, -, -, hfpos⟩ := exists_span_of_row hc hs h hf
  have hle := of_decide_eq_true hef.1
  have hapart := apart_of_rows hc hs h he hf hef.2
  omega

/-- The last row is that of the map. -/
theorem getLast?_of_laidOut (hc : c.SectionsWellFormed) (hs : c.HasSingletons)
    (h : c.LaidOut dataEnd) : c.map.entries.getLast? = some (c.mapEntryOf .mapList) := by
  have hmem : c.mapEntryOf .mapList ∈ c.map.entries :=
    (perm_of_laidOut hc hs h).mem_iff.2 (List.mem_map_of_mem (mem_listed.2 (.inl rfl)))
  obtain ⟨before, after, heq⟩ := List.append_of_mem hmem
  have hsorted := pairwise_of_laidOut hc hs h
  rw [heq, List.pairwise_append, List.pairwise_cons] at hsorted
  cases after with
  | nil => simp [heq]
  | cons f after =>
    -- no section starts behind the map
    have hlt := (hsorted.2.1.1 f (List.mem_cons_self ..)).1
    have hf : f ∈ c.map.entries := by simp [heq]
    have hle := h.offset_le hc hs f.kind
    have hoffset : f.offset = (c.sectionOf f.kind).offset?.getD 0 :=
      congrArg MapEntry.offset (eq_mapEntryOf hc hs h hf).1
    rw [h.mapEntryOf_mapList hc hs] at hlt
    exact absurd hlt (Nat.not_lt.2 (hoffset ▸ hle))

/-- The data starts where the last table entry ends, or the header if there is none. -/
theorem exists_last_of_laidOut (hc : c.SectionsWellFormed) (hs : c.HasSingletons)
    (h : c.LaidOut dataEnd) : ∃ a start size,
      (c.itemsOf (.header :: Kind.tables)).getLast? = some a ∧ c.Takes a.2 start size ∧
      start + size = c.header.dataOffset := by
  have hmem : (first .header).any ∈ c.itemsOf (.header :: Kind.tables) :=
    (mem_itemsOf hc).2 ⟨List.mem_cons_self .., _, hs.get?_header⟩
  have hlast := List.getLast?_eq_some_getLast (List.ne_nil_of_mem hmem)
  obtain ⟨start, size, htakes, hend⟩ := (chained_of_stacked hc hs h.tables).last hlast
  exact ⟨_, start, size, hlast, htakes, hend⟩

/-! ### The written file -/

/-- The number of items and the offset that a directory gives for a table, zero without a row. -/
def tableOf (m : MapList) (k : Kind) : Nat × Nat :=
  match m.entry? k with
  | some e => (e.count, e.offset)
  | none => (0, 0)

/-- The directory says of every table what the container knows of it. -/
theorem tableOf_of_laidOut (hc : c.SectionsWellFormed) (hs : c.HasSingletons)
    (h : c.LaidOut dataEnd) (k : Kind) : tableOf c.map k = c.places.table k := by
  have hkinds := (kinds_of_laidOut hc hs h).nodup_iff.2 (listed_nodup c)
  have htable : c.places.table k = ((c.sectionOf k).size, (c.sectionOf k).offset?.getD 0) := rfl
  by_cases hsize : (c.sectionOf k).size = 0
  · have hnone : c.map.entry? k = none := by
      refine List.find?_eq_none.2 fun e he => ?_
      rw [beq_iff_eq]
      rintro rfl
      exact (eq_mapEntryOf hc hs h he).2 hsize
    obtain ⟨first, sizes, hsizes, hstands⟩ := h.stands k
    have hlength := length_of_mapM hsizes
    rw [(hc k).length_order, ← Section.size, hsize] at hlength
    obtain rfl := List.length_eq_zero_iff.1 hlength
    rw [tableOf, hnone, htable, hsize, hstands.offset?]
    rfl
  · have hmem : c.mapEntryOf k ∈ c.map.entries :=
      (perm_of_laidOut hc hs h).mem_iff.2 (List.mem_map_of_mem (mem_listed.2 (.inr hsize)))
    have hsome : c.map.entry? k = some (c.mapEntryOf k) := find?_kind_of_nodup hkinds hmem
    rw [tableOf, hsome, htable]
    rfl

/-- The header that was written repeats the directory. -/
theorem tables_of_image {image : Image} (hc : c.SectionsWellFormed) (hs : c.HasSingletons)
    (h : c.LaidOut dataEnd) (himage : c.image = .ok image) :
    (image.extract 0x38 0x68).toList = Kind.tables.flatMap fun k =>
      Word.full (tableOf c.map k).1 ++ Word.full (tableOf c.map k).2 := by
  have hx : c.get (first .header) = .ok c.header := get_eq_ok.2 hs.get?_header
  obtain ⟨start, bs, hoffset, hbytes, tail, htail⟩ := exists_bytes_of_image hc hs h himage hx
  rw [offsetOf?_first hc hs rfl (Nat.dvd_zero _) h.tables] at hoffset
  cases hoffset
  cases hbytes
  have hwords : Header.tableWords c.places = Kind.tables.flatMap fun k =>
      Word.full (tableOf c.map k).1 ++ Word.full (tableOf c.map k).2 := by
    simp only [Header.tableWords, tableOf_of_laidOut hc hs h]
  rw [← hwords, Array.toList_extract, List.extract_eq_take_drop]
  obtain ⟨before, after, hwrite, hbefore⟩ := c.header.exists_write_eq c.places
  rw [List.drop_zero] at htail
  rw [← htail, hwrite, List.append_assoc, List.append_assoc, List.drop_left' hbefore]
  exact List.take_left' (Header.length_tableWords c.places)

/-- The map that was written is read as the directory without the lengths of the sections. -/
theorem decode_map_of_image {image : Image} (hc : c.SectionsWellFormed) (hs : c.HasSingletons)
    (h : c.LaidOut dataEnd) (himage : c.image = .ok image) (hshort : image.size < 2 ^ 32)
    (keepsSigned : Bool) :
    ∃ t, MapList.decode { image, position := c.header.mapOffset, keepsSigned } =
      .ok ⟨c.map.entries.map MapEntry.asRead⟩ t := by
  have hx : c.get (first .mapList) = .ok c.map := get_eq_ok.2 hs.get?_map
  obtain ⟨start, bs, hoffset, hbytes, tail, htail⟩ := exists_bytes_of_image hc hs h himage hx
  have hdvd : Kind.mapList.alignment ∣ c.header.mapOffset := by
    rw [h.mapOffset]
    exact Section.dvd_alignUp .mapList dataEnd
  rw [offsetOf?_first hc hs rfl hdvd h.map] at hoffset
  cases hoffset
  cases hbytes
  have hsize := (of_image hc hs h himage).1
  have hlt := h.mapOffset_lt hc hs
  have hle : c.header.mapOffset ≤ image.size := by omega
  have hsizes : MapList.size c.map < 2 ^ 32 := by
    have hlength := congrArg List.length htail
    simp only [List.length_append, MapList.length_write, List.length_drop,
      Array.length_toList] at hlength
    omega
  have hreads : Reads c.places keepsSigned (fun _ => True) c.header.mapOffset MapList.decode
      c.map.write fun _ => c.map.asRead :=
    MapList.reads (h.map_isEncodable hc hs (hsize ▸ hshort)) hsizes
  obtain ⟨y, r, hrun, -, -, hval⟩ :=
    hreads { image, position := c.header.mapOffset, keepsSigned } tail rfl hle htail.symm rfl
      References.tracks_empty fun _ _ => trivial
  obtain rfl := hval _ (r.gives_handlesRead c.places)
  exact ⟨_, hrun⟩

/-- The directory and the header say where everything stands. -/
structure HasDirectory (c : Container) : Prop where
  /-- There is one row for every section that holds an item, and none for any other. -/
  nodup : (c.map.entries.map (·.kind)).Nodup
  rows : ∀ k, (∃ e ∈ c.map.entries, e.kind = k) ↔ (c.sectionOf k).size ≠ 0
  /-- A row counts the items, and spans the bytes from the first one to the end of the last. -/
  row : ∀ e ∈ c.map.entries, e.count = (c.sectionOf e.kind).size ∧
    ∃ x y size start' size', (c.sectionOf e.kind).handles.head? = some x ∧
      c.Takes x e.offset size ∧ (c.sectionOf e.kind).handles.getLast? = some y ∧
      c.Takes y start' size' ∧ e.offset + e.byteSize = start' + size'
  /-- The rows stand in the order of the file, and no two sections share a byte. -/
  sorted : c.map.entries.Pairwise fun e f =>
    e.offset < f.offset ∧ e.offset + e.byteSize ≤ f.offset
  /-- The row of the map is the last one and ends the file. -/
  last : ∃ e, c.map.entries.getLast? = some e ∧ e.kind = .mapList ∧
    e.offset = c.header.mapOffset ∧ e.offset + e.byteSize = c.header.fileSize
  /-- The data starts where the last table entry ends, or the header if there is none. -/
  dataOffset : ∃ a start size, (c.itemsOf (.header :: Kind.tables)).getLast? = some a ∧
    c.Takes a.2 start size ∧ start + size = c.header.dataOffset
  dataSize : c.header.dataSize = c.header.fileSize - c.header.dataOffset

theorem hasDirectory_of_laidOut (hc : c.SectionsWellFormed) (hs : c.HasSingletons)
    (h : c.LaidOut dataEnd) : c.HasDirectory := by
  have hkinds := kinds_of_laidOut hc hs h
  refine ⟨hkinds.nodup_iff.2 (listed_nodup c), fun k => ?_, fun e he => ?_,
    pairwise_of_laidOut hc hs h, ⟨_, getLast?_of_laidOut hc hs h, rfl, ?_, ?_⟩,
    exists_last_of_laidOut hc hs h, h.dataSize⟩
  · rw [← List.mem_map, hkinds.mem_iff, mem_listed]
    refine ⟨fun hk => ?_, .inr⟩
    rcases hk with rfl | hk
    · rw [Section.size, hs.map]
      decide
    · exact hk
  · obtain ⟨x, y, size, start', size', hx, hfirst, hy, hlast, -, hend, -⟩ :=
      exists_span_of_row hc hs h he
    exact ⟨congrArg MapEntry.count (eq_mapEntryOf hc hs h he).1, x, y, size, start', size', hx,
      hfirst, hy, hlast, hend⟩
  · exact congrArg MapEntry.offset (h.mapEntryOf_mapList hc hs)
  · rw [h.mapEntryOf_mapList hc hs]
    exact h.map_end hc hs

/-- After a layout the directory and the header say where everything stands. In the file the
directory is read back without the spans, it names no section twice, and the header repeats the
counts and offsets of the tables. -/
theorem directory_of_place {fileSize : Nat} (hwf : c.SectionsWellFormed) (hs : c.HasSingletons)
    (h : c.place = .ok (d, fileSize)) :
    d.HasDirectory ∧ d.header.fileSize = fileSize ∧
    ∀ e image, d.write = .ok (e, image) → image.size < 2 ^ 32 →
      (∀ keepsSigned, ∃ t,
        MapList.decode { image, position := d.header.mapOffset, keepsSigned } =
          .ok ⟨d.map.entries.map MapEntry.asRead⟩ t) ∧
      (∀ r, MapList.directory r ⟨d.map.entries.map MapEntry.asRead⟩ =
        .ok (r.arrange (d.map.entries.map MapEntry.asRead))) ∧
      (image.extract 0x38 0x68).toList = Kind.tables.flatMap fun k =>
        Word.full (tableOf d.map k).1 ++ Word.full (tableOf d.map k).2 := by
  obtain ⟨hlays, hsize, dataEnd, hlaid⟩ := laidOut_of_placeWithin hwf hs h
  have hd := hlays.wellFormed
  have hds := hlays.singletons
  refine ⟨hasDirectory_of_laidOut hd hds hlaid, hsize, fun e image hwrite hshort => ?_⟩
  obtain ⟨-, himage, -⟩ := write_eq_ok.1 hwrite
  refine ⟨decode_map_of_image hd hds hlaid himage hshort, fun r => ?_,
    tables_of_image hd hds hlaid himage⟩
  rw [hlaid.entries]
  exact MapList.directory_eq_ok.2 ⟨kinds_nodup d d.header.mapOffset, rfl⟩

/-- The container with one method is laid out and written, and its directory is read back. -/
theorem directory_of_place_oneMethod : ∃ (c d e : Container) (image : Image),
    c.SectionsWellFormed ∧ c.HasSingletons ∧
    c.place = .ok (d, 284) ∧ d.HasDirectory ∧ d.write = .ok (e, image) ∧ image.size = 284 ∧
    ∃ t, MapList.decode { image, position := 172 } =
      .ok ⟨d.map.entries.map MapEntry.asRead⟩ t := by
  obtain ⟨c, d, hc, hd, -, hmap, -, -⟩ := exists_place_oneMethod
  have hcoherent := (reachable_of_oneMethod hc).coherent
  obtain ⟨hdirectory, hsize, hwritten⟩ :=
    directory_of_place hcoherent.wellFormed hcoherent.singletons hd
  obtain ⟨hlays, -, dataEnd, hlaid⟩ :=
    laidOut_of_placeWithin hcoherent.wellFormed hcoherent.singletons hd
  have hclosed := closed_of_laysOut hcoherent.wellFormed (closed_of_oneMethod hc) hlays
  obtain ⟨image, himage⟩ := exists_image (hcoherent.place hd) hclosed hlaid
  have hlength := ((of_image hlays.wellFormed hlays.singletons hlaid himage).1).trans hsize
  have hwrite := write_eq_ok.2 ⟨congrArg Stage.isPlaced hlays.stage, himage, rfl⟩
  obtain ⟨hdecode, -, -⟩ := hwritten _ image hwrite (by rw [hlength]; decide)
  exact ⟨c, d, _, image, hcoherent.wellFormed, hcoherent.singletons, hd, hdirectory, hwrite,
    hlength, hmap ▸ hdecode true⟩

end DexContainer.Container
