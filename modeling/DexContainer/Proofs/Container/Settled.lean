import DexContainer.Proofs.Container.Dependencies
import DexContainer.Proofs.Container.Sorting
import DexContainer.Proofs.Container.Stamping

/-! Layouts that move nothing. A container that stands already where a layout puts it keeps its
positions, and the layout ends in its first round. Main statements: `IsSettled.placeWithin`, a
layout of a container that stands in its orders moves nothing; and `isSettled_of_copies`, what is
read of one's own output stands so under every policy that asks for no other orders. -/

namespace DexContainer

namespace Container

variable {c d e g : Container} {k : Kind} {ρ : Renaming}
  {dataOffset dataEnd mapOffset fileSize rounds : Nat} {image : Image}

/-! ### Orders after a layout -/

/-- The sections are put into their orders on the way, and keep them until the layout ends. -/
theorem exists_orders_of_placeWithin (hwf : c.SectionsWellFormed)
    (h : c.placeWithin rounds = .ok (d, fileSize)) :
    ∃ c1 c2 c3 c4, c.Rearranges c1 ∧ c1.orderClasses = .ok c2 ∧ c2.Rearranges c3 ∧
      c3.sortData = .ok c4 ∧ c3.Rearranges c4 ∧ c4.KeepsContent d ∧
      (∀ k, k.isSingleton = false → (d.sectionOf k).order = (c4.sectionOf k).order) ∧
      (c4.sectionOf .classDef).order = (c2.sectionOf .classDef).order ∧
      (∀ k, (c1.sectionOf k).order = (c.sectionOf k).order) ∧
      ∀ k, k ≠ .classDef → (c3.sectionOf k).order = (c.sectionOf k).order := by
  obtain ⟨c1, tablesStart, c2, c3, dataOffset, c4, c5, dataEnd, c6, h1, h2, h3, h4, h5, h6, rfl⟩ :=
    placeWithin_eq_ok.1 h
  obtain ⟨r1, order1, -⟩ := rearranges_placeSections h1
  obtain ⟨r2, frame2⟩ := rearranges_orderClasses h2
  obtain ⟨r3, order3, -⟩ := rearranges_placeSections h3
  obtain ⟨r4, frame4⟩ := rearranges_sortData h4
  have w4 := r4.wellFormed (r3.wellFormed (r2.wellFormed (r1.wellFormed hwf)))
  obtain ⟨r5, order5, -, -⟩ := stacked_of_settle w4 h5
  have hcloses : c5.Closes _ dataOffset _ fileSize := closes_of_placeSection h6
  refine ⟨c1, c2, c3, c4, r1, h2, r3, h4, r4, fun k hk => ?_, fun k hk => ?_, ?_, order1,
    fun k hk => by rw [order3, frame2 k hk, order1]⟩
  · exact (congrArg Section.items (hcloses.other k hk)).trans (r5.items k)
  · exact (congrArg Section.order (hcloses.other k hk)).trans (order5 k)
  · rw [frame4 _ rfl, order3]

theorem KeepsItems.hasDistinctClasses (h : c.KeepsItems d) (hc : c.HasDistinctClasses) :
    d.HasDistinctClasses := by
  intro x x' y y' hx hx' heq
  rw [h.get?] at hx hx'
  exact hc x x' y y' hx hx' heq

/-- After a layout the class definitions stand in dependency order. -/
theorem isOrdered_of_placeWithin (hwf : c.SectionsWellFormed) (hc : c.HasDistinctClasses)
    (hr : c.policy.reordersClasses = true) (h : c.placeWithin rounds = .ok (d, fileSize)) :
    d.IsOrdered := by
  obtain ⟨c1, c2, c3, c4, r1, h2, r3, -, r4, hitems, horder, hclasses, -⟩ :=
    exists_orders_of_placeWithin hwf h
  have hordered := isOrdered_of_orderClasses (r1.items.hasDistinctClasses hc)
    (r1.policy.symm ▸ hr) h2
  refine hordered.congr ?_ ?_ ?_
  · rw [horder _ rfl, hclasses]
  · rw [hitems _ rfl, r4.items, r3.items]
  · rw [hitems _ rfl, r4.items, r3.items]

/-- After a layout that sorts, the sortable sections stand in canonical order. -/
theorem isSorted_of_placeWithin (hwf : c.SectionsWellFormed) (hclosed : c.Closed)
    (hs : c.policy.sorts = true) (h : c.placeWithin rounds = .ok (d, fileSize))
    (hk : k.isSortable = true) : d.IsSorted k := by
  obtain ⟨c1, c2, c3, c4, r1, h2, r3, h4, -, hitems, horder, -⟩ :=
    exists_orders_of_placeWithin hwf h
  have r2 := (rearranges_orderClasses h2).1
  have r := (r1.trans r2).trans r3
  have hsorted := isSorted_of_sortData (r.wellFormed hwf) (r.items.closed hclosed)
    (r.policy.symm ▸ hs) h4 hk
  exact hsorted.congr hk hitems (horder k (isSingleton_of_isSortable hk))

/-! ### Layouts that move nothing -/

/-- The container stands as a layout leaves it: in its orders, laid out, and with a map of as many
rows as there are sections with items. -/
structure IsSettled (c : Container) (dataOffset dataEnd fileSize : Nat) : Prop where
  wellFormed : c.SectionsWellFormed
  singletons : c.HasSingletons
  tables : c.Stacked (.header :: Kind.tables) 0 dataOffset
  data : c.Stacked Kind.dataOrder dataOffset dataEnd
  map : c.Stacked [.mapList] (alignUp dataEnd Kind.mapList.alignment) fileSize
  rows : c.map.entries.length =
    (c.mapEntries (alignUp dataEnd Kind.mapList.alignment)).length
  classes : c.policy.reordersClasses = true → c.IsOrdered
  sorted : c.policy.sorts = true → ∀ k, k.isSortable = true → c.IsSorted k

/-- The container with another map. -/
def withMap (c : Container) (m : MapList) : Container :=
  c.modifySection .mapList (·.replaceFirst m)

theorem sectionOf_withMap_of_ne (m : MapList) (hk : k ≠ .mapList) :
    (c.withMap m).sectionOf k = c.sectionOf k :=
  sectionOf_modifySection_of_ne c _ hk

theorem sectionOf_withMap (m : MapList) :
    (c.withMap m).sectionOf .mapList = (c.sectionOf .mapList).replaceFirst m :=
  sectionOf_modifySection_self c .mapList _

theorem header_withMap (m : MapList) : (c.withMap m).header = c.header :=
  header_congr (by rw [sectionOf_withMap_of_ne m (by decide)])

theorem places_withMap (m : MapList) : (c.withMap m).places = c.places :=
  places_replaceFirst (k := .mapList) c m

theorem SectionsWellFormed.withMap (h : c.SectionsWellFormed) (m : MapList) :
    (c.withMap m).SectionsWellFormed :=
  forall_modifySection (P := fun _ s => s.WellFormed) ((h .mapList).replaceFirst m) fun k _ => h k

theorem HasSingletons.withMap (h : c.HasSingletons) (m : MapList) :
    (c.withMap m).HasSingletons where
  header := by rw [sectionOf_withMap_of_ne m (by decide), h.header]
  map := by rw [sectionOf_withMap, size_replaceFirst, h.map]

theorem orderClasses_of_settled (h : c.policy.reordersClasses = true → c.IsOrdered) :
    c.orderClasses = .ok c := by
  by_cases hr : c.policy.reordersClasses = true
  · exact orderClasses_of_isOrdered (h hr)
  · rw [orderClasses, if_neg hr]
    rfl

theorem sortData_of_settled
    (h : c.policy.sorts = true → ∀ k, k.isSortable = true → c.IsSorted k) :
    c.sortData = .ok c := by
  by_cases hs : c.policy.sorts = true
  · exact sortData_of_isSorted (h hs)
  · rw [sortData, if_neg hs]
    rfl

/-- A map of as many rows is as long, so it stands where the map stood. -/
theorem placeSection_withMap {m : MapList} (hwf : c.SectionsWellFormed) (hs : c.HasSingletons)
    (hstacked : c.Stacked [.mapList] mapOffset fileSize)
    (hrows : c.map.entries.length = m.entries.length) :
    placeSection .mapList (c.withMap m) mapOffset = .ok (c.withMap m, fileSize) := by
  obtain ⟨sizes, hsizes, hstands, rfl⟩ := hstacked
  have hsize : Content.size (c.withMap m).places .mapList m =
      Content.size c.places .mapList c.map := by
    simp only [Content.size, MapList.size, hrows]
  have hwf' := (hwf .mapList).replaceFirst m
  have hsizes' : ((c.withMap m).sectionOf .mapList).sizes (c.withMap m).places = .ok sizes := by
    rw [sectionOf_withMap, Section.sizes_of_size_one hwf' ((size_replaceFirst m).trans hs.map)
      (Section.get?_replaceFirst m hs.map), hsize,
      ← Section.sizes_of_size_one (hwf .mapList) hs.map hs.get?_map, hsizes]
  refine placeSection_eq_ok.2 ⟨sizes, hsizes', modifySection_eq_self ?_, rfl⟩
  rw [sectionOf_withMap]
  exact Section.applyLayout_eq_self hwf' (hstands.replaceFirst m)

/-- A layout of a container that stands as a layout leaves it writes the map and the header anew and
moves nothing. -/
theorem IsSettled.placeWithin (h : c.IsSettled dataOffset dataEnd fileSize) (rounds : Nat) :
    c.placeWithin (rounds + 1) = .ok ({ (c.withMap
      ⟨c.mapEntries (alignUp dataEnd Kind.mapList.alignment)⟩).stampHeader dataOffset
        (alignUp dataEnd Kind.mapList.alignment) fileSize with stage := .placed }, fileSize) := by
  obtain ⟨sizes, hsizes, hstands, htables⟩ := h.tables
  have hheader : c.Stacked [.header] 0 (Section.layoutOf .header 0 sizes).next :=
    ⟨sizes, hsizes, hstands, rfl⟩
  refine placeWithin_eq_ok.2 ⟨c, _, c, c, dataOffset, c, c, dataEnd, _,
    placeSections_of_stacked h.wellFormed hheader, orderClasses_of_settled h.classes,
    placeSections_of_stacked h.wellFormed htables, sortData_of_settled h.sorted, ?_,
    placeSection_withMap h.wellFormed h.singletons h.map h.rows, rfl⟩
  rw [settle, placeData, placeSections_of_stacked h.wellFormed h.data, ok_bind]
  exact if_pos rfl

/-! ### Copies of a layout -/

theorem IsCopy.mapEntries (h : c.IsCopy ρ g) (n : Nat) : g.mapEntries n = c.mapEntries n :=
  mapEntries_congr (fun k _ =>
    ⟨(h.sections k).size, (h.sections k).offset?, (h.sections k).byteSize⟩) n

theorem IsCopy.header (h : c.IsCopy ρ g) (hs : c.HasSingletons) : g.header = c.header :=
  header_eq ((h.sections .header).singleton (h.wellFormed _) hs.header hs.get?_header)

theorem IsCopy.map (h : c.IsCopy ρ g) (hs : c.HasSingletons) : g.map = c.map.asRead :=
  map_eq ((h.sections .mapList).singleton (h.wellFormed _) hs.map hs.get?_map)

/-- A copy of a container that is laid out stands as a layout under its own policy leaves it. -/
theorem IsCopy.isSettled (h : c.IsCopy ρ g) (hs : c.HasSingletons) (hgs : g.HasSingletons)
    (hc : c.LaidOut dataEnd) (hclasses : g.policy.reordersClasses = true → c.IsOrdered)
    (hsorted : g.policy.sorts = true → ∀ k, k.isSortable = true → c.IsSorted k) :
    g.IsSettled c.header.dataOffset dataEnd c.header.fileSize where
  wellFormed := h.wellFormed_copy
  singletons := hgs
  tables := h.stacked hc.tables
  data := h.stacked hc.data
  map := hc.mapOffset ▸ h.stacked hc.map
  rows := by
    rw [h.map hs, h.mapEntries, ← hc.mapOffset, hc.entries, MapList.asRead, List.length_map]
  classes := fun hr => (hclasses hr).copy h
  sorted := fun hr k hk => (hsorted hr k hk).copy h hk

theorem keepsContent_withHeader (c : Container) (x : Header) :
    c.KeepsContent (c.withHeader x) := by
  intro k hk
  rw [sectionOf_withHeader_of_ne _ (Kind.ne_header hk)]

theorem closed_withHeader (hc : c.Closed) (x : Header) : (c.withHeader x).Closed := by
  intro k y z hz
  by_cases hk : k = .header
  · subst hk
    exact each_nil
  rw [sectionOf_withHeader_of_ne _ hk] at hz
  refine (hc k y z hz).mono fun j h hh => ?_
  rw [resolves_iff] at hh ⊢
  by_cases hj : j = .header
  · subst hj
    rwa [sectionOf_withHeader, size_replaceFirst]
  · rwa [sectionOf_withHeader_of_ne _ hj]

/-- A stored container and what is read of it. -/
theorem IsStored.isCopy (h : c.IsStored image) (hc : c.Closed) (hg : g.SectionsWellFormed)
    (hcopies : ∀ k, (c.sectionOf k).Copies ρ true (g.sectionOf k)) : c.IsCopy ρ g := by
  obtain ⟨dataEnd, hlaid⟩ := h.laidOut
  exact ⟨hc, fun k x hx => hlaid.isPlaced h.coherent.wellFormed hx,
    fun k x y hy => (h.isReadable k x y hy).1, h.coherent.wellFormed, hg, hcopies⟩

/-- What is read of a file stands as a layout leaves it, under every policy that asks for no other
orders than those in which the container stood when it was written. -/
theorem isSettled_of_copies {x : Header} (hclosed : c.Closed)
    (hlaid : (c.withHeader x).LaidOut dataEnd) (hstored : (c.withHeader x).IsStored image)
    (hg : g.Coherent) (hcopies : ∀ k, ((c.withHeader x).sectionOf k).Copies ρ true (g.sectionOf k))
    (hclasses : g.policy.reordersClasses = true → c.IsOrdered)
    (hsorted : g.policy.sorts = true → ∀ k, k.isSortable = true → c.IsSorted k) :
    (c.withHeader x).IsCopy ρ g ∧ g.IsSettled (c.withHeader x).header.dataOffset dataEnd
      (c.withHeader x).header.fileSize := by
  have hcopy := hstored.isCopy (closed_withHeader hclosed x) hg.wellFormed hcopies
  refine ⟨hcopy, hcopy.isSettled hstored.coherent.singletons hg.singletons hlaid
    (fun hr => ?_) fun hr k hk => ?_⟩
  · refine (hclasses hr).congr ?_ ?_ ?_ <;> rw [sectionOf_withHeader_of_ne _ (by decide)]
  · refine (hsorted hr k hk).congr hk (keepsContent_withHeader c x) ?_
    rw [sectionOf_withHeader_of_ne _ (Kind.ne_header (isSingleton_of_isSortable hk))]

end Container

end DexContainer
