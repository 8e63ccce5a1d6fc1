import DexContainer.Proofs.Container.Orders

/-! What a layout leads to. Main statements: `laidOut_of_placeWithin`, after a layout the header,
the tables and the data sections stand one after the other and the map stands behind them, every
section as long as its items, and no item but the header and the map is changed. -/

namespace DexContainer

namespace Section

variable {k : Kind} {s : Section k} {l : Layout} {places : Places}

theorem Stands.replaceFirst (h : s.Stands l) (x : Content k) : (s.replaceFirst x).Stands l :=
  ⟨h.positions, h.offset?, h.byteSize⟩

theorem order_of_size_one (hs : s.WellFormed) (h : s.items.size = 1) : s.order.toList = [0] := by
  have := hs.order
  rw [h] at this
  exact List.perm_singleton.1 this

/-- A section of one item is as long as the item. -/
theorem sizes_of_size_one {x : Content k} (hs : s.WellFormed) (h : s.items.size = 1)
    (hx : s.get? ⟨0⟩ = some x) :
    s.sizes places = do return [← Content.size places k x] := by
  rw [sizes, order_of_size_one hs h, List.mapM_cons, List.mapM_nil, sizeOf, get, hx]
  rfl

theorem get?_replaceFirst (x : Content k) (h : s.items.size = 1) :
    (s.replaceFirst x).get? ⟨0⟩ = some x := by
  simp [Section.replaceFirst, get?, h]

end Section

namespace Container

variable {c d : Container} {k : Kind} {ks : List Kind} {start finish rounds dataEnd : Nat}

/-- The header and the map occur once. -/
structure HasSingletons (c : Container) : Prop where
  header : (c.sectionOf .header).items.size = 1
  map : (c.sectionOf .mapList).items.size = 1

theorem KeepsItems.singletons (h : c.KeepsItems d) (hs : c.HasSingletons) : d.HasSingletons := by
  constructor <;> rw [h]
  · exact hs.header
  · exact hs.map

/-- The container stands as it was laid out, its data ending at an offset. -/
structure LaidOut (c : Container) (dataEnd : Nat) : Prop where
  tables : c.Stacked (.header :: Kind.tables) 0 c.header.dataOffset
  data : c.Stacked Kind.dataOrder c.header.dataOffset dataEnd
  mapOffset : c.header.mapOffset = alignUp dataEnd Kind.mapList.alignment
  map : c.Stacked [.mapList] c.header.mapOffset c.header.fileSize
  entries : c.map = ⟨c.mapEntries c.header.mapOffset⟩
  dataSize : c.header.dataSize = c.header.fileSize - c.header.dataOffset

theorem placeSections_singleton : placeSections [k] c start = placeSection k c start :=
  bind_pure _

/-! ### Rounds -/

/-- The last round moved no code. -/
theorem exists_of_settle (h : settle start rounds c = .ok (d, finish)) :
    ∃ e, c.Rearranges e ∧ (∀ k, k ∉ Kind.dataOrder → e.sectionOf k = c.sectionOf k) ∧
      (∀ k, (e.sectionOf k).order = (c.sectionOf k).order) ∧
      placeSections Kind.dataOrder e start = .ok (d, finish) ∧ d.codeOffsets = e.codeOffsets := by
  induction rounds generalizing c with
  | zero => exact absurd h (by simp [settle])
  | succ rounds ih =>
    rw [settle] at h
    obtain ⟨⟨e, next⟩, he, h⟩ := bind_eq_ok.1 h
    simp only at h
    split at h
    · rename_i hcode
      cases h
      exact ⟨c, .refl c, fun _ _ => rfl, fun _ => rfl, he, hcode⟩
    · obtain ⟨hce, horder, hframe⟩ := rearranges_placeSections he
      obtain ⟨f, hf, hframe', horder', hplace, hcode⟩ := ih h
      exact ⟨f, hce.trans hf, fun k hk => (hframe' k hk).trans (hframe k hk),
        fun k => (horder' k).trans (horder k), hplace, hcode⟩

theorem measuresAlike_of_codeOffsets (hc : c.SectionsWellFormed) (h : c.Rearranges d)
    (horder : ∀ k, (d.sectionOf k).order = (c.sectionOf k).order)
    (hframe : ∀ k, k ∉ Kind.dataOrder → d.sectionOf k = c.sectionOf k)
    (hcode : d.codeOffsets = c.codeOffsets) : c.places.MeasuresAlike d.places := by
  intro k x hk
  by_cases hkc : k = .code
  · subst hkc
    exact Section.position?_congr (h.wellFormed hc _) (hc _) (by rw [h.items]) (horder _) hcode x
  · refine position?_congr (hframe k ?_)
    revert hk hkc
    cases k <;> decide

theorem stacked_of_settle (hc : c.SectionsWellFormed)
    (h : settle start rounds c = .ok (d, finish)) :
    c.Rearranges d ∧ (∀ k, (d.sectionOf k).order = (c.sectionOf k).order) ∧
      (∀ k, k ∉ Kind.dataOrder → d.sectionOf k = c.sectionOf k) ∧
      d.Stacked Kind.dataOrder start finish := by
  obtain ⟨e, hce, hframe, horder, hplace, hcode⟩ := exists_of_settle h
  obtain ⟨hed, horder', hframe'⟩ := rearranges_placeSections hplace
  have he := hce.wellFormed hc
  refine ⟨hce.trans hed, fun k => (horder' k).trans (horder k),
    fun k hk => (hframe' k hk).trans (hframe k hk), ?_⟩
  exact stacked_of_placeSections (by decide) he hplace
    (.inr (measuresAlike_of_codeOffsets he hed horder' hframe' hcode))

/-! ### From the sections to the file -/

/-- The kinds whose sections a layout may reorder. -/
def Movable (k : Kind) : Prop := k = .classDef ∨ k.isSortable = true

theorem stacked_append {ks ks' : List Kind} {middle : Nat} (h : c.Stacked ks start middle)
    (h' : c.Stacked ks' middle finish) : c.Stacked (ks ++ ks') start finish := by
  induction ks generalizing start with
  | nil =>
    obtain rfl : start = middle := h
    exact h'
  | cons k ks ih =>
    obtain ⟨sizes, hsizes, hstands, h⟩ := h
    exact ⟨sizes, hsizes, hstands, ih h⟩

/-- The steps of a layout. -/
theorem placeWithin_eq_ok {fileSize : Nat} : c.placeWithin rounds = .ok (d, fileSize) ↔
    ∃ c1 tablesStart c2 c3 dataOffset c4 c5 dataEnd c6,
      placeSections [.header] c 0 = .ok (c1, tablesStart) ∧ c1.orderClasses = .ok c2 ∧
      placeSections Kind.tables c2 tablesStart = .ok (c3, dataOffset) ∧ c3.sortData = .ok c4 ∧
      settle dataOffset rounds c4 = .ok (c5, dataEnd) ∧
      placeSection .mapList (c5.modifySection .mapList (·.replaceFirst
          ⟨c5.mapEntries (alignUp dataEnd Kind.mapList.alignment)⟩))
          (alignUp dataEnd Kind.mapList.alignment) = .ok (c6, fileSize) ∧
        { c6.stampHeader dataOffset (alignUp dataEnd Kind.mapList.alignment) fileSize with
          stage := .placed } = d := by
  simp only [placeSections_singleton, placeWithin, bind_eq_ok, pure_eq_ok, Prod.exists,
    Prod.mk.injEq]
  constructor
  · rintro ⟨c1, n1, h1, c2, h2, c3, n3, h3, c4, h4, c5, n5, h5, c6, n6, h6, hd, rfl⟩
    exact ⟨c1, n1, c2, c3, n3, c4, c5, n5, c6, h1, h2, h3, h4, h5, h6, hd⟩
  · rintro ⟨c1, n1, c2, c3, n3, c4, c5, n5, c6, h1, h2, h3, h4, h5, h6, hd⟩
    exact ⟨c1, n1, h1, c2, h2, c3, n3, h3, c4, h4, c5, n5, h5, c6, _, h6, hd, rfl⟩

/-- Lays out what stands in front of the data and puts the data into order; tells where the data
starts. -/
def prepare (c : Container) : Except Violation (Container × Nat) := do
  let (c, tablesStart) ← placeSection .header c 0
  let c ← c.orderClasses
  let (c, dataOffset) ← placeSections Kind.tables c tablesStart
  return (← c.sortData, dataOffset)

theorem prepare_eq_ok : c.prepare = .ok (d, start) ↔ ∃ c1 tablesStart c2 c3,
    placeSections [.header] c 0 = .ok (c1, tablesStart) ∧ c1.orderClasses = .ok c2 ∧
      placeSections Kind.tables c2 tablesStart = .ok (c3, start) ∧ c3.sortData = .ok d := by
  simp only [placeSections_singleton, prepare, bind_eq_ok, pure_eq_ok, Prod.exists, Prod.mk.injEq]
  constructor
  · rintro ⟨c1, n1, h1, c2, h2, c3, n3, h3, c4, h4, rfl, rfl⟩
    exact ⟨c1, n1, c2, c3, h1, h2, h3, h4⟩
  · rintro ⟨c1, n1, c2, c3, h1, h2, h3, h4⟩
    exact ⟨c1, n1, h1, c2, h2, c3, _, h3, d, h4, rfl, rfl⟩

/-- Preparing moves no data and no item that keeps its number. -/
theorem of_prepare (hc : c.SectionsWellFormed) (h : c.prepare = .ok (d, start)) :
    c.Rearranges d ∧ (∀ k, ¬Movable k → (d.sectionOf k).order = (c.sectionOf k).order) ∧
      d.Stacked (.header :: Kind.tables) 0 start ∧
      ∀ k ∈ Kind.dataOrder, k.isSortable = false → d.sectionOf k = c.sectionOf k := by
  obtain ⟨c1, tablesStart, c2, c3, h1, h2, h3, h4⟩ := prepare_eq_ok.1 h
  obtain ⟨r1, order1, frame1⟩ := rearranges_placeSections h1
  obtain ⟨r2, frame2⟩ := rearranges_orderClasses h2
  obtain ⟨r3, order3, frame3⟩ := rearranges_placeSections h3
  obtain ⟨r4, frame4⟩ := rearranges_sortData h4
  refine ⟨((r1.trans r2).trans r3).trans r4, fun k hk => ?_, ?_, fun k hk hsortable => ?_⟩
  · rw [Movable, not_or, Bool.not_eq_true] at hk
    rw [frame4 k hk.2, order3, frame2 k hk.1, order1]
  · have header1 : c1.Stacked [.header] 0 tablesStart :=
      stacked_of_placeSections (by decide) hc h1 (.inl (by decide))
    have header3 : c3.Stacked [.header] 0 tablesStart := by
      refine stacked_congr header1 (fun k hk => ?_) (.inl (by decide))
      obtain rfl := List.mem_singleton.1 hk
      rw [frame3 _ (by decide), frame2 _ (by decide)]
    have tables3 : c3.Stacked Kind.tables tablesStart start :=
      stacked_of_placeSections (by decide) (r2.wellFormed (r1.wellFormed hc)) h3
        (.inl (by decide))
    refine stacked_congr (stacked_append header3 tables3) (fun k hk => frame4 k ?_)
      (.inl (by decide))
    revert hk
    cases k <;> decide
  · rw [frame4 k hsortable, frame3 k (by revert hk; cases k <;> decide),
      frame2 k (by revert hk; cases k <;> decide), frame1 k (by revert hk; cases k <;> decide)]

theorem header_eq {x : Header} (h : (c.sectionOf .header).get? ⟨0⟩ = some x) : c.header = x := by
  rw [header, first, h, Option.getD_some]

theorem map_eq {x : MapList} (h : (c.sectionOf .mapList).get? ⟨0⟩ = some x) : c.map = x := by
  rw [map, first, h, Option.getD_some]

theorem header_congr (h : (d.sectionOf .header).items = (c.sectionOf .header).items) :
    d.header = c.header := by
  simp only [header, Section.get?, h]

/-- The directory does not depend on itself. -/
theorem mapEntries_congr (h : ∀ k, k ≠ .mapList → (d.sectionOf k).size = (c.sectionOf k).size ∧
    (d.sectionOf k).offset? = (c.sectionOf k).offset? ∧
    (d.sectionOf k).byteSize = (c.sectionOf k).byteSize) (mapOffset : Nat) :
    d.mapEntries mapOffset = c.mapEntries mapOffset := by
  have hkinds : Kind.readOrder.filter (fun k => k ≠ .mapList && (d.sectionOf k).size ≠ 0) =
      Kind.readOrder.filter (fun k => k ≠ .mapList && (c.sectionOf k).size ≠ 0) := by
    refine List.filter_congr fun k _ => ?_
    by_cases hk : k = .mapList
    · simp [hk]
    · simp [(h k hk).1]
  have hrows : (Kind.readOrder.filter fun k => k ≠ .mapList && (c.sectionOf k).size ≠ 0).map
      d.mapEntryOf = (Kind.readOrder.filter fun k => k ≠ .mapList && (c.sectionOf k).size ≠ 0).map
      c.mapEntryOf := by
    refine List.map_congr_left fun k hk => ?_
    have hk : k ≠ .mapList := by
      have := (List.mem_filter.1 hk).2
      simp only [Bool.and_eq_true, decide_eq_true_eq] at this
      exact this.1
    obtain ⟨h1, h2, h3⟩ := h k hk
    simp only [mapEntryOf, h1, h2, h3]
  simp only [mapEntries, hkinds, hrows]

theorem size_replaceFirst {s : Section k} (x : Content k) :
    (s.replaceFirst x).items.size = s.items.size := by
  simp [Section.replaceFirst]

/-- The directory does not tell what the header says. -/
theorem mapEntries_of_header {x : Header}
    (hheader : d.sectionOf .header = (c.sectionOf .header).replaceFirst x)
    (hother : ∀ k, k.isSingleton = false → d.sectionOf k = c.sectionOf k) (mapOffset : Nat) :
    d.mapEntries mapOffset = c.mapEntries mapOffset := by
  refine mapEntries_congr (fun k hk => ?_) mapOffset
  by_cases hkh : k = .header
  · subst hkh
    rw [hheader]
    exact ⟨size_replaceFirst _, rfl, rfl⟩
  · rw [hother k (by revert hk hkh; cases k <;> decide)]
    exact ⟨rfl, rfl, rfl⟩

/-- The header is as long whatever it says. -/
theorem stacked_of_header {x : Header} (hc : c.SectionsWellFormed) (hs : c.HasSingletons)
    (hheader : d.sectionOf .header = (c.sectionOf .header).replaceFirst x)
    (hother : ∀ k, k.isSingleton = false → d.sectionOf k = c.sectionOf k)
    (h : c.Stacked (.header :: Kind.tables) 0 finish) :
    d.Stacked (.header :: Kind.tables) 0 finish := by
  have hwf : (d.sectionOf .header).WellFormed := hheader ▸ (hc .header).replaceFirst x
  have hsize : (d.sectionOf .header).items.size = 1 := by
    rw [hheader, size_replaceFirst, hs.header]
  obtain ⟨y, hy⟩ : ∃ y, (c.sectionOf .header).get? ⟨0⟩ = some y := by
    rw [Section.get?, Array.getElem?_eq_getElem (by rw [hs.header]; decide)]
    exact ⟨_, rfl⟩
  obtain ⟨ns, hns, hstands, htables⟩ := h
  rw [Section.sizes_of_size_one (hc _) hs.header hy] at hns
  cases hns
  refine ⟨_, ?_, hheader ▸ hstands.replaceFirst _, ?_⟩
  · rw [Section.sizes_of_size_one hwf hsize (hheader ▸ Section.get?_replaceFirst _ hs.header)]
    rfl
  · refine stacked_congr htables (fun k hk => hother k ?_) (.inl (by decide))
    revert hk
    cases k <;> decide

/-! ### The last steps -/

variable {dataOffset mapOffset fileSize : Nat}

/-- The second container is the first one with its map behind the data and its header filled in. -/
structure Closes (c d : Container) (dataOffset mapOffset fileSize : Nat) : Prop where
  header : d.sectionOf .header = (c.sectionOf .header).replaceFirst { c.header with
    dataOffset, mapOffset, fileSize, dataSize := fileSize - dataOffset }
  map : ∃ sizes,
    ((c.sectionOf .mapList).replaceFirst (MapList.mk (c.mapEntries mapOffset))).sizes d.places =
      .ok sizes ∧
    d.sectionOf .mapList =
      ((c.sectionOf .mapList).replaceFirst (MapList.mk (c.mapEntries mapOffset))).applyLayout
        (Section.layoutOf .mapList mapOffset sizes) ∧
    (Section.layoutOf .mapList mapOffset sizes).next = fileSize
  other : ∀ k, k.isSingleton = false → d.sectionOf k = c.sectionOf k
  policy : d.policy = c.policy
  keepsSigned : d.keepsSigned = c.keepsSigned
  stage : d.stage = .placed

theorem closes_of_placeSection (h : placeSection .mapList (c.modifySection .mapList
    (·.replaceFirst (MapList.mk (c.mapEntries mapOffset)))) mapOffset = .ok (d, fileSize)) :
    c.Closes { d.stampHeader dataOffset mapOffset fileSize with stage := .placed } dataOffset
      mapOffset fileSize := by
  generalize hm : MapList.mk (c.mapEntries mapOffset) = m at h
  obtain ⟨sizes, hsizes, hd, hnext⟩ := placeSection_eq_ok.1 h
  rw [sectionOf_modifySection_self] at hsizes
  have hmap : d.sectionOf .mapList = ((c.sectionOf .mapList).replaceFirst m).applyLayout
      (Section.layoutOf .mapList mapOffset sizes) := by
    rw [← hd, sectionOf_modifySection_self, sectionOf_modifySection_self]
  have hother : ∀ k, k ≠ .mapList → d.sectionOf k = c.sectionOf k := by
    intro k hk
    rw [← hd, sectionOf_modifySection_of_ne _ _ hk, sectionOf_modifySection_of_ne _ _ hk]
  have hstamped : ∀ k, k ≠ .header →
      (d.stampHeader dataOffset mapOffset fileSize).sectionOf k = d.sectionOf k :=
    fun k hk => sectionOf_modifySection_of_ne d _ hk
  refine ⟨?_, hm ▸ ⟨sizes, ?_, ?_, hnext⟩, fun k hk => ?_, ?_, ?_, rfl⟩
  · have hheader : d.header = c.header := header_congr (by rw [hother _ (by decide)])
    rw [← hother .header (by decide), ← hheader]
    exact sectionOf_modifySection_self d .header _
  · rw [← hsizes]
    exact Section.sizes_congr_of_isIndexed rfl rfl rfl
  · exact (hstamped .mapList (by decide)).trans hmap
  · exact (hstamped k (Kind.ne_header hk)).trans (hother k (Kind.ne_mapList hk))
  · simp [← hd, stampHeader]
  · simp [← hd, stampHeader]

namespace Closes

theorem order (h : c.Closes d dataOffset mapOffset fileSize) (k : Kind) :
    (d.sectionOf k).order = (c.sectionOf k).order := by
  cases k with
  | header => rw [h.header]; rfl
  | mapList => obtain ⟨sizes, -, hmap, -⟩ := h.map; rw [hmap]; rfl
  | _ => rw [h.other _ rfl]

theorem index (h : c.Closes d dataOffset mapOffset fileSize) (k : Kind) :
    (d.sectionOf k).index = (c.sectionOf k).index := by
  cases k with
  | header => rw [h.header]; rfl
  | mapList => obtain ⟨sizes, -, hmap, -⟩ := h.map; rw [hmap]; rfl
  | _ => rw [h.other _ rfl]

theorem wellFormed (h : c.Closes d dataOffset mapOffset fileSize) (hc : c.SectionsWellFormed) :
    d.SectionsWellFormed := by
  intro k
  cases k with
  | header => rw [h.header]; exact (hc .header).replaceFirst _
  | mapList =>
    obtain ⟨sizes, -, hmap, -⟩ := h.map
    rw [hmap]
    exact ((hc .mapList).replaceFirst _).applyLayout _
  | _ => rw [h.other _ rfl]; exact hc _

theorem singletons (h : c.Closes d dataOffset mapOffset fileSize) (hs : c.HasSingletons) :
    d.HasSingletons := by
  obtain ⟨sizes, -, hmap, -⟩ := h.map
  constructor
  · rw [h.header, size_replaceFirst, hs.header]
  · rw [hmap]
    exact (size_replaceFirst _).trans hs.map

theorem header_eq (h : c.Closes d dataOffset mapOffset fileSize) (hs : c.HasSingletons) :
    d.header = { c.header with
      dataOffset, mapOffset, fileSize, dataSize := fileSize - dataOffset } := by
  refine Container.header_eq ?_
  rw [h.header, Section.get?_replaceFirst _ hs.header]

theorem map_eq (h : c.Closes d dataOffset mapOffset fileSize) (hs : c.HasSingletons) :
    d.map = ⟨c.mapEntries mapOffset⟩ := by
  obtain ⟨sizes, -, hmap, -⟩ := h.map
  refine Container.map_eq ?_
  rw [hmap]
  exact Section.get?_replaceFirst (MapList.mk (c.mapEntries mapOffset)) hs.map

theorem map_stacked (h : c.Closes d dataOffset mapOffset fileSize) (hc : c.SectionsWellFormed) :
    d.Stacked [.mapList] mapOffset fileSize := by
  obtain ⟨sizes, hsizes, hmap, hnext⟩ := h.map
  refine ⟨sizes, ?_, ?_, hnext⟩
  · rw [hmap, ← hsizes]
    exact Section.sizes_congr_of_isIndexed rfl rfl rfl
  · rw [hmap]
    refine Section.stands_applyLayout ((hc .mapList).replaceFirst _) ?_
    rw [Section.size_layoutOf, length_of_mapM hsizes, Array.length_toList]

theorem measuresAlike (h : c.Closes d dataOffset mapOffset fileSize) :
    c.places.MeasuresAlike d.places := by
  intro k x hk
  refine position?_congr (h.other k ?_)
  revert hk
  cases k <;> decide

/-- The tables and the data stay where they were, and the map follows them. -/
theorem laidOut (h : c.Closes d dataOffset (alignUp dataEnd Kind.mapList.alignment) fileSize)
    (hc : c.SectionsWellFormed) (hs : c.HasSingletons)
    (htables : c.Stacked (.header :: Kind.tables) 0 dataOffset)
    (hdata : c.Stacked Kind.dataOrder dataOffset dataEnd) : d.LaidOut dataEnd := by
  have hdata' : d.Stacked Kind.dataOrder dataOffset dataEnd := by
    refine stacked_congr hdata (fun k hk => h.other k ?_) (.inr h.measuresAlike)
    revert hk
    cases k <;> decide
  have hheader := h.header_eq hs
  constructor
  · rw [hheader]
    exact stacked_of_header hc hs h.header h.other htables
  · rwa [hheader]
  · rw [hheader]
  · rw [hheader]
    exact h.map_stacked hc
  · rw [h.map_eq hs, hheader, mapEntries_of_header h.header h.other]
  · rw [hheader]

end Closes

/-! ### A whole layout -/

/-- Before the map and the header are written, all other sections stand already. -/
theorem exists_of_placeWithin (hc : c.SectionsWellFormed)
    (h : c.placeWithin rounds = .ok (d, fileSize)) :
    ∃ e dataOffset dataEnd, c.Rearranges e ∧
      (∀ k, ¬Movable k → (e.sectionOf k).order = (c.sectionOf k).order) ∧
      e.Stacked (.header :: Kind.tables) 0 dataOffset ∧
      e.Stacked Kind.dataOrder dataOffset dataEnd ∧
      e.Closes d dataOffset (alignUp dataEnd Kind.mapList.alignment) fileSize := by
  obtain ⟨c1, tablesStart, c2, c3, dataOffset, c4, c5, dataEnd, c6, h1, h2, h3, h4, h5, h6, rfl⟩ :=
    placeWithin_eq_ok.1 h
  obtain ⟨hprepared, horder, htables, -⟩ :=
    of_prepare hc (prepare_eq_ok.2 ⟨c1, tablesStart, c2, c3, h1, h2, h3, h4⟩)
  obtain ⟨hsettled, horder', hframe, hdata⟩ := stacked_of_settle (hprepared.wellFormed hc) h5
  refine ⟨c5, dataOffset, dataEnd, hprepared.trans hsettled,
    fun k hk => (horder' k).trans (horder k hk), ?_, hdata, closes_of_placeSection h6⟩
  refine stacked_congr htables (fun k hk => hframe k ?_) (.inl (by decide))
  revert hk
  cases k <;> decide

/-- What the second container has of the first one after a layout. -/
structure LaysOut (c d : Container) : Prop where
  items : c.KeepsContent d
  order : ∀ k, (d.sectionOf k).order.toList.Perm (c.sectionOf k).order.toList
  fixed : ∀ k, ¬Movable k → (d.sectionOf k).order = (c.sectionOf k).order
  wellFormed : d.SectionsWellFormed
  singletons : d.HasSingletons
  magic : d.header.magic = c.header.magic
  linkSize : d.header.linkSize = c.header.linkSize
  linkOffset : d.header.linkOffset = c.header.linkOffset
  policy : d.policy = c.policy
  keepsSigned : d.keepsSigned = c.keepsSigned
  stage : d.stage = .placed

/-- After a layout every item stands where the header and the map say, and only these two items are
changed. -/
theorem laidOut_of_placeWithin (hc : c.SectionsWellFormed) (hs : c.HasSingletons)
    (h : c.placeWithin rounds = .ok (d, fileSize)) :
    c.LaysOut d ∧ d.header.fileSize = fileSize ∧ ∃ dataEnd, d.LaidOut dataEnd := by
  obtain ⟨e, dataOffset, dataEnd, hce, hfixed, htables, hdata, hed⟩ := exists_of_placeWithin hc h
  have he := hce.wellFormed hc
  have hes := hce.items.singletons hs
  have hheader := hed.header_eq hes
  rw [header_congr (hce.items _)] at hheader
  have hlays : c.LaysOut d := {
    items := fun k hk => by rw [hed.other k hk, hce.items]
    order := fun k => by rw [hed.order]; exact hce.order k
    fixed := fun k hk => by rw [hed.order, hfixed k hk]
    wellFormed := hed.wellFormed he
    singletons := hed.singletons hes
    magic := by rw [hheader]
    linkSize := by rw [hheader]
    linkOffset := by rw [hheader]
    policy := by rw [hed.policy, hce.policy]
    keepsSigned := by rw [hed.keepsSigned, hce.keepsSigned]
    stage := hed.stage }
  exact ⟨hlays, by rw [hheader], dataEnd, hed.laidOut he hes htables hdata⟩

end Container

end DexContainer
