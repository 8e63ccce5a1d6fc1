import Mathlib.Data.List.Pairwise
import DexContainer.Proofs.Container.Directory

/-! Where the items of a container stand that is laid out. In file order every item starts at the
first aligned offset behind the item before it, so no two items share a byte and no gap is wider
than an alignment asks for. Main statements: `chained_of_laidOut`, the items of the whole file form
one such chain; and `arranged_of_place`, what a layout says about the tables, the data sections and
the map. -/

namespace DexContainer

variable {k : Kind}

namespace Section

/-- Entries of one length that ends at an aligned offset take up just their lengths. -/
theorem finishFrom_of_width {width cursor : Nat} {sizes : List Nat} (hcursor : k.alignment ∣ cursor)
    (hw : k.alignment ∣ width) (hsizes : ∀ size ∈ sizes, size = width) :
    finishFrom k cursor sizes = cursor + sizes.length * width := by
  induction sizes generalizing cursor with
  | nil => simp [finishFrom]
  | cons size sizes ih =>
    obtain rfl := hsizes size (List.mem_cons_self ..)
    rw [finishFrom, alignUp_of_dvd hcursor,
      ih (Nat.dvd_add hcursor hw) fun n hn => hsizes n (List.mem_cons_of_mem _ hn),
      List.length_cons, Nat.succ_mul]
    omega

theorem eq_width_of_mem_sizes {places : Places} {s : Section k} {sizes : List Nat}
    {width size : Nat}
    (hk : k.entrySize? = some width) (h : s.sizes places = .ok sizes) (hsize : size ∈ sizes) :
    size = width := by
  obtain ⟨id, -, hid⟩ := exists_of_mem_mapM h hsize
  obtain ⟨x, -, hx⟩ := bind_eq_ok.1 hid
  rw [Content.size_of_entrySize? hk] at hx
  exact (Except.ok.inj hx).symm

end Section

namespace Container

variable {c d : Container} {ks : List Kind} {hs : List AnyHandle}
  {start size finish cursor dataEnd : Nat}

/-- The item starts at an offset and is of a length. -/
def Takes (c : Container) (h : Handle k) (start size : Nat) : Prop :=
  ∃ x, c.get h = .ok x ∧ (c.sectionOf k).offsetOf? h = some start ∧
    Content.size c.places k x = .ok size

theorem Takes.unique {h : Handle k} {start' size' : Nat} (ht : c.Takes h start size)
    (ht' : c.Takes h start' size') : start = start' ∧ size = size' := by
  obtain ⟨x, hx, hstart, hsize⟩ := ht
  obtain ⟨y, hy, hstart', hsize'⟩ := ht'
  obtain rfl := Except.ok.inj (hx.symm.trans hy)
  exact ⟨Option.some.inj (hstart.symm.trans hstart'), Except.ok.inj (hsize.symm.trans hsize')⟩

theorem Takes.size_pos {h : Handle k} (ht : c.Takes h start size) : 0 < size := by
  obtain ⟨x, -, -, hsize⟩ := ht
  exact Content.size_pos hsize

/-- The items stand one after the other from a cursor on, each at the first aligned offset behind
the one before. -/
def Chained (c : Container) : List AnyHandle → (cursor finish : Nat) → Prop
  | [], cursor, finish => cursor = finish
  | ⟨k, h⟩ :: hs, cursor, finish => ∃ size, c.Takes h (alignUp cursor k.alignment) size ∧
      c.Chained hs (alignUp cursor k.alignment + size) finish

/-! ### What a chain says -/

theorem chained_append {hs' : List AnyHandle} {middle : Nat} (h : c.Chained hs cursor middle)
    (h' : c.Chained hs' middle finish) : c.Chained (hs ++ hs') cursor finish := by
  induction hs generalizing cursor with
  | nil =>
    obtain rfl : cursor = middle := h
    exact h'
  | cons a hs ih =>
    obtain ⟨size, ha, h⟩ := h
    exact ⟨size, ha, ih h⟩

theorem Chained.le (h : c.Chained hs cursor finish) : cursor ≤ finish := by
  induction hs generalizing cursor with
  | nil => exact Nat.le_of_eq h
  | cons a hs ih =>
    obtain ⟨size, -, h⟩ := h
    have hle := Section.le_alignUp a.1 cursor
    have := ih h
    omega

/-- Every item of a chain stands at an aligned offset between the ends of the chain. -/
theorem Chained.exists_takes (h : c.Chained hs cursor finish) {a : AnyHandle} (ha : a ∈ hs) :
    ∃ start size, c.Takes a.2 start size ∧ a.1.alignment ∣ start ∧ cursor ≤ start ∧
      start + size ≤ finish := by
  induction hs generalizing cursor with
  | nil => cases ha
  | cons b hs ih =>
    obtain ⟨size, hb, h⟩ := h
    have hle := Section.le_alignUp b.1 cursor
    rcases List.mem_cons.1 ha with rfl | ha
    · exact ⟨_, size, hb, Section.dvd_alignUp _ _, hle, h.le⟩
    · obtain ⟨start, size', htakes, hdvd, hstart, hend⟩ := ih h ha
      exact ⟨start, size', htakes, hdvd, by omega, hend⟩

/-- Of two items of a chain one ends before the other starts. -/
theorem Chained.pairwise (h : c.Chained hs cursor finish) :
    hs.Pairwise fun a b => ∀ start size start' size', c.Takes a.2 start size →
      c.Takes b.2 start' size' → start + size ≤ start' := by
  induction hs generalizing cursor with
  | nil => exact .nil
  | cons a hs ih =>
    obtain ⟨size, ha, h⟩ := h
    refine .cons (fun b hb start size₁ start' size' hstart hstart' => ?_) (ih h)
    obtain ⟨start₂, size₂, hb, -, hle, -⟩ := h.exists_takes hb
    obtain ⟨rfl, rfl⟩ := ha.unique hstart
    obtain ⟨rfl, -⟩ := hb.unique hstart'
    exact hle

theorem Chained.head (h : c.Chained hs cursor finish) {a : AnyHandle} (ha : hs.head? = some a) :
    ∃ size, c.Takes a.2 (alignUp cursor a.1.alignment) size := by
  cases hs with
  | nil => cases ha
  | cons b hs =>
    obtain rfl : b = a := by simpa using ha
    obtain ⟨size, hb, -⟩ := h
    exact ⟨size, hb⟩

/-- An item of a chain starts at the first aligned offset behind the item before it. -/
theorem Chained.next (h : c.Chained hs cursor finish) {i : Nat} {a b : AnyHandle}
    (ha : hs[i]? = some a) (hb : hs[i + 1]? = some b) (ht : c.Takes a.2 start size) :
    ∃ size', c.Takes b.2 (alignUp (start + size) b.1.alignment) size' := by
  induction hs generalizing cursor i with
  | nil => cases ha
  | cons a' hs ih =>
    obtain ⟨size₁, ha', h⟩ := h
    cases i with
    | zero =>
      obtain rfl : a' = a := by simpa using ha
      obtain ⟨rfl, rfl⟩ := ha'.unique ht
      cases hs with
      | nil => cases hb
      | cons b' hs =>
        obtain rfl : b' = b := by simpa using hb
        obtain ⟨size', hb', -⟩ := h
        exact ⟨size', hb'⟩
    | succ i => exact ih h ha hb

/-! ### The items of a file -/

/-- The items of some sections in file order. -/
def itemsOf (c : Container) (ks : List Kind) : List AnyHandle :=
  ks.flatMap fun k => (c.sectionOf k).handles.map Handle.any

/-- The kinds in the order of their sections in the file. -/
def fileOrder : List Kind := .header :: Kind.tables ++ Kind.dataOrder ++ [.mapList]

theorem mem_itemsOf {a : AnyHandle} (hc : c.SectionsWellFormed) :
    a ∈ c.itemsOf ks ↔ a.1 ∈ ks ∧ c.Resolves a.1 a.2 := by
  obtain ⟨k, h⟩ := a
  simp only [itemsOf, List.mem_flatMap, List.mem_map, Handle.any, resolves_iff]
  constructor
  · rintro ⟨j, hj, y, hy, heq⟩
    cases heq
    refine ⟨hj, ?_⟩
    obtain ⟨id, hid, rfl⟩ := List.mem_map.1 hy
    exact (hc _).mem_order.1 hid
  · rintro ⟨hk, hlt⟩
    exact ⟨k, hk, h, List.mem_map.2 ⟨h.id, (hc k).mem_order.2 hlt, rfl⟩, rfl⟩

theorem mem_fileOrder (k : Kind) : k ∈ fileOrder := by cases k <;> decide

/-- Items of one kind that start where the lengths before them end form a chain. -/
theorem chained_of_startsFrom {hs : List (Handle k)} {sizes : List Nat}
    (h : List.Forall₂ (fun h x => c.Takes h x.1 x.2) hs
      ((Section.startsFrom k cursor sizes).zip sizes)) :
    c.Chained (hs.map Handle.any) cursor (Section.finishFrom k cursor sizes) := by
  induction sizes generalizing cursor hs with
  | nil =>
    cases h
    rfl
  | cons size sizes ih =>
    cases h with
    | cons ha h => exact ⟨size, ha, ih h⟩

theorem chained_of_stands {sizes : List Nat} (hc : (c.sectionOf k).WellFormed)
    (hsingle : k.isSingleton = true → (c.sectionOf k).items.size = 1)
    (hsizes : (c.sectionOf k).sizes c.places = .ok sizes)
    (hstands : (c.sectionOf k).Stands (Section.layoutOf k start sizes)) :
    c.Chained ((c.sectionOf k).handles.map Handle.any) start
      (Section.layoutOf k start sizes).next := by
  rw [Section.next_layoutOf]
  refine chained_of_startsFrom (List.forall₂_iff_get.2 ⟨?_, fun i hi hi' => ?_⟩)
  · simp [Section.handles, length_of_mapM hsizes]
  · have hi : i < (c.sectionOf k).order.toList.length := by simpa [Section.handles] using hi
    have hi' : i < (Section.startsFrom k start sizes).length := by
      simp only [List.length_zip] at hi'
      omega
    have hoffset := hstands.offsetOf?_eq hc hsingle hsizes hi
    obtain ⟨x, hx, hsize⟩ := bind_eq_ok.1 ((mapM_eq_ok.1 hsizes).get hi (by simpa using hi'))
    rw [List.getElem?_eq_getElem hi'] at hoffset
    refine ⟨x, ?_, ?_, ?_⟩
    · simpa [Section.handles, Container.get] using hx
    · simpa [Section.handles] using hoffset
    · simpa using hsize

theorem chained_of_stacked (hc : c.SectionsWellFormed) (hs : c.HasSingletons)
    (h : c.Stacked ks start finish) : c.Chained (c.itemsOf ks) start finish := by
  induction ks generalizing start with
  | nil => exact h
  | cons k ks ih =>
    obtain ⟨sizes, hsizes, hstands, h⟩ := h
    exact chained_append (chained_of_stands (hc k) hs.size_one hsizes hstands) (ih h)

theorem itemsOf_mapList (hc : c.SectionsWellFormed) (hs : c.HasSingletons) :
    c.itemsOf [.mapList] = [(first .mapList).any] := by
  simp [itemsOf, Section.handles, Section.order_of_size_one (hc _) hs.map, first]

/-- The offset of the map is aligned already, so the map follows the data like any other section. -/
theorem LaidOut.map_stacked (hc : c.SectionsWellFormed) (hs : c.HasSingletons)
    (h : c.LaidOut dataEnd) : c.Stacked [.mapList] dataEnd c.header.fileSize := by
  obtain ⟨sizes, hsizes, hstands, hnext⟩ := h.map
  have hne : sizes ≠ [] := by
    rintro rfl
    have hlength := length_of_mapM hsizes
    rw [(hc _).length_order, hs.map] at hlength
    exact absurd hlength (by decide)
  rw [h.mapOffset, Section.layoutOf_alignUp hne] at hstands hnext
  exact ⟨sizes, hsizes, hstands, hnext⟩

theorem LaidOut.stacked (hc : c.SectionsWellFormed) (hs : c.HasSingletons)
    (h : c.LaidOut dataEnd) : c.Stacked fileOrder 0 c.header.fileSize :=
  stacked_append (stacked_append h.tables h.data) (h.map_stacked hc hs)

/-- The items of the whole file form one chain. -/
theorem chained_of_laidOut (hc : c.SectionsWellFormed) (hs : c.HasSingletons)
    (h : c.LaidOut dataEnd) : c.Chained (c.itemsOf fileOrder) 0 c.header.fileSize :=
  chained_of_stacked hc hs (h.stacked hc hs)

/-- No byte belongs to both items. -/
def Apart (c : Container) (a b : AnyHandle) : Prop :=
  ∀ start size start' size', c.Takes a.2 start size → c.Takes b.2 start' size' →
    start + size ≤ start' ∨ start' + size' ≤ start

instance : Std.Symm c.Apart where
  symm _ _ h start size start' size' ha hb := (h start' size' start size hb ha).symm

/-- Two items of a file that is laid out share no byte. -/
theorem apart_of_laidOut (hc : c.SectionsWellFormed) (hs : c.HasSingletons)
    (h : c.LaidOut dataEnd) {a b : AnyHandle} (ha : c.Resolves a.1 a.2) (hb : c.Resolves b.1 b.2)
    (hne : a ≠ b) : c.Apart a b := by
  have hpairwise : (c.itemsOf fileOrder).Pairwise c.Apart :=
    (chained_of_laidOut hc hs h).pairwise.imp fun hab start size start' size' ha hb =>
      .inl (hab start size start' size' ha hb)
  exact hpairwise.forall ((mem_itemsOf hc).2 ⟨mem_fileOrder _, ha⟩)
    ((mem_itemsOf hc).2 ⟨mem_fileOrder _, hb⟩) hne

/-! ### Tables -/

/-- The bytes that the entries of a table take. -/
def tableSize (c : Container) (k : Kind) : Nat := (c.sectionOf k).size * k.entrySize?.getD 0

/-- A table starts where the one before it ends. -/
theorem tables_of_stacked (hc : c.SectionsWellFormed)
    (hks : ∀ k ∈ ks, k.alignment = 4 ∧ ∃ width, k.entrySize? = some width ∧ 4 ∣ width)
    (hstart : 4 ∣ start) (h : c.Stacked ks start finish) :
    finish = start + (ks.map c.tableSize).sum ∧
    ∀ before k after, ks = before ++ k :: after → (c.sectionOf k).offset? =
      if (c.sectionOf k).size = 0 then none else some (start + (before.map c.tableSize).sum) := by
  induction ks generalizing start with
  | nil =>
    refine ⟨?_, fun before k after heq => absurd heq (by simp)⟩
    simpa using (show start = finish from h).symm
  | cons j ks ih =>
    obtain ⟨sizes, hsizes, hstands, h⟩ := h
    obtain ⟨halign, width, hwidth, hdvd⟩ := hks j (List.mem_cons_self ..)
    have hlength : sizes.length = (c.sectionOf j).size := by
      rw [length_of_mapM hsizes, (hc j).length_order, Section.size]
    have hnext : (Section.layoutOf j start sizes).next = start + c.tableSize j := by
      rw [Section.next_layoutOf, Section.finishFrom_of_width (halign ▸ hstart) (halign ▸ hdvd)
        fun size hsize => Section.eq_width_of_mem_sizes hwidth hsizes hsize, tableSize, hwidth,
        hlength, Option.getD_some]
    rw [hnext] at h
    have hsize : 4 ∣ c.tableSize j := by
      rw [tableSize, hwidth]
      exact Nat.dvd_mul_left_of_dvd hdvd _
    obtain ⟨hfinish, hrest⟩ :=
      ih (fun k hk => hks k (List.mem_cons_of_mem _ hk)) (Nat.dvd_add hstart hsize) h
    refine ⟨by rw [hfinish, List.map_cons, List.sum_cons, Nat.add_assoc],
      fun before k after heq => ?_⟩
    cases before with
    | nil =>
      obtain ⟨rfl, rfl⟩ := List.cons.inj heq
      rw [hstands.offset?, Section.layoutOf, ← hlength]
      cases sizes with
      | nil => rfl
      | cons size sizes =>
        simp [Section.alignUp_of_dvd (halign ▸ hstart : j.alignment ∣ start)]
    | cons i before =>
      obtain ⟨rfl, rfl⟩ := List.cons.inj heq
      rw [hrest before k after rfl, List.map_cons, List.sum_cons, Nat.add_assoc]

/-! ### After a layout -/

theorem isIndexed_of_mem_tables (hk : k ∈ Kind.tables) : k.isIndexed = true := by
  revert hk
  cases k <;> decide

/-- The entries of a table are numbered in file order. -/
theorem positionsInOrder_of_laidOut (hc : c.SectionsWellFormed) (h : c.LaidOut dataEnd)
    (hk : k.isIndexed = true) : (c.sectionOf k).positionsInOrder =
      (List.range (c.sectionOf k).size).map some := by
  have hlength : (c.sectionOf k).handles.length = (c.sectionOf k).size := by
    rw [Section.handles, List.length_map, (hc k).length_order, Section.size]
  refine List.ext_getElem (by simp [Section.positionsInOrder, hlength]) fun i hi hi' => ?_
  have hi : i < (c.sectionOf k).handles.length := by simpa [Section.positionsInOrder] using hi
  have hposition := numbers_of_laidOut h hk (List.getElem?_eq_getElem hi)
  simpa [Section.positionsInOrder, Container.position?] using hposition

/-- A data item is at the offset that is recorded as its position. -/
theorem Takes.position? {h : Handle k} (hk : k.isIndexed = false) (ht : c.Takes h start size) :
    c.position? h = some start := by
  obtain ⟨x, -, hstart, -⟩ := ht
  rwa [Section.offsetOf?, hk] at hstart

theorem isIndexed_of_mem_dataOrder (hk : k ∈ Kind.dataOrder) : k.isIndexed = false := by
  revert hk
  cases k <;> decide

/-- Every item stands where a layout puts it: the tables behind the header without a gap, the data
items behind the tables and the map behind the data, each at the first aligned offset. -/
structure Arranged (c : Container) : Prop where
  /-- The entries of a table are numbered in file order. -/
  numbers : ∀ k ∈ Kind.tables,
    (c.sectionOf k).positionsInOrder = (List.range (c.sectionOf k).size).map some
  /-- A table starts where the tables before it end. -/
  tables : ∀ before k after, Kind.tables = before ++ k :: after → (c.sectionOf k).offset? =
    if (c.sectionOf k).size = 0 then none
    else some (Header.length + (before.map c.tableSize).sum)
  dataOffset : c.header.dataOffset = Header.length + (Kind.tables.map c.tableSize).sum
  /-- A data item stands at its position, between the tables and the map. -/
  data : ∀ a ∈ c.itemsOf Kind.dataOrder, ∃ start size, c.position? a.2 = some start ∧
    c.Takes a.2 start size ∧ a.1.alignment ∣ start ∧ c.header.dataOffset ≤ start ∧
    start + size ≤ c.header.mapOffset
  /-- The first item behind the tables, which is the map if there is no data. -/
  head : ∀ a, (c.itemsOf (Kind.dataOrder ++ [.mapList])).head? = some a →
    ∃ size, c.Takes a.2 (alignUp c.header.dataOffset a.1.alignment) size
  /-- The item behind a data item, which is the map at last. -/
  next : ∀ i a b, (c.itemsOf (Kind.dataOrder ++ [.mapList]))[i]? = some a →
    (c.itemsOf (Kind.dataOrder ++ [.mapList]))[i + 1]? = some b →
    ∃ start size size', c.Takes a.2 start size ∧
      c.Takes b.2 (alignUp (start + size) b.1.alignment) size' ∧
      start < alignUp (start + size) b.1.alignment
  /-- No two items share a byte. -/
  apart : ∀ a b : AnyHandle, c.Resolves a.1 a.2 → c.Resolves b.1 b.2 → a ≠ b → c.Apart a b
  /-- The map ends the file. -/
  map : ∃ size, c.Takes (first .mapList) c.header.mapOffset size ∧
    c.header.mapOffset + size = c.header.fileSize

theorem arranged_of_laidOut (hc : c.SectionsWellFormed) (hs : c.HasSingletons)
    (h : c.LaidOut dataEnd) : c.Arranged := by
  obtain ⟨hdataOffset, htables⟩ :=
    tables_of_stacked hc (by decide) (by decide) (h.header_stands hc hs)
  have hdata := chained_of_stacked hc hs h.data
  have hbehind := chained_of_stacked hc hs (stacked_append h.data (h.map_stacked hc hs))
  refine ⟨fun k hk => ?_, htables, hdataOffset, fun a ha => ?_, fun a ha => hbehind.head ha,
    fun i a b ha hb => ?_, fun a b ha hb hne => apart_of_laidOut hc hs h ha hb hne, ?_⟩
  · exact positionsInOrder_of_laidOut hc h (isIndexed_of_mem_tables hk)
  · obtain ⟨start, size, htakes, hdvd, hle, hend⟩ := hdata.exists_takes ha
    exact ⟨start, size, htakes.position? (isIndexed_of_mem_dataOrder ((mem_itemsOf hc).1 ha).1),
      htakes, hdvd, hle, Nat.le_trans hend h.le_mapOffset⟩
  · obtain ⟨start, size, htakes, -, -, -⟩ := hbehind.exists_takes (List.mem_of_getElem? ha)
    obtain ⟨size', hnext⟩ := hbehind.next ha hb htakes
    have hle := Section.le_alignUp b.1 (start + size)
    have hpos := htakes.size_pos
    exact ⟨start, size, size', htakes, hnext, by omega⟩
  · obtain ⟨size, htakes, hend⟩ := itemsOf_mapList hc hs ▸ chained_of_stacked hc hs h.map
    rw [h.mapOffset, Section.alignUp_alignUp, ← h.mapOffset] at htakes hend
    exact ⟨size, htakes, hend⟩

/-- A layout arranges the items of whatever container, and tells the length of the file. -/
theorem arranged_of_place {fileSize : Nat} (hwf : c.SectionsWellFormed) (hs : c.HasSingletons)
    (h : c.place = .ok (d, fileSize)) : d.Arranged ∧ d.header.fileSize = fileSize := by
  obtain ⟨hlays, hsize, dataEnd, hlaid⟩ := laidOut_of_placeWithin hwf hs h
  exact ⟨arranged_of_laidOut hlays.wellFormed hlays.singletons hlaid, hsize⟩

theorem arranged_of_place_oneMethod : ∃ c d : Container, c.SectionsWellFormed ∧ c.HasSingletons ∧
    c.place = .ok (d, 284) ∧ d.Arranged ∧ d.header.fileSize = 284 ∧
    d.position? (k := .classData) ⟨0⟩ = some 143 ∧ d.position? (k := .code) ⟨0⟩ = some 152 := by
  obtain ⟨c, d, hc, hd, -, -, hclass, hcode⟩ := exists_place_oneMethod
  have hcoherent := (reachable_of_oneMethod hc).coherent
  obtain ⟨harranged, hsize⟩ := arranged_of_place hcoherent.wellFormed hcoherent.singletons hd
  exact ⟨c, d, hcoherent.wellFormed, hcoherent.singletons, hd, harranged, hsize, hclass, hcode⟩

end Container

end DexContainer
