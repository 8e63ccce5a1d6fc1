import DexContainer.Proofs.Container.Interning
import DexContainer.Proofs.Section.Writing

/-! Writing follows the layout. The sections are written one after the other, and what is written
is as long as the layout provides for, so that every item ends up at the position that was recorded
for it. Main statement: `stands_of_write`, an image that was written is as long as the header says,
every item takes the bytes from its offset on that its size says, and all other bytes are zero. -/

namespace DexContainer

variable {k : Kind} {places : Places}

namespace Section

variable {s : Section k} {image image' : Image} {first : Nat} {bss : List Bytes}

theorem next_layoutOf (k : Kind) (start : Nat) (sizes : List Nat) :
    (layoutOf k start sizes).next = finishFrom k start sizes := by
  cases sizes with
  | nil => rfl
  | cons size sizes => simp [layoutOf, finishFrom]

/-- The items stand in the image as the section is laid out from an offset on. -/
structure IsStored (places : Places) (image : Image) (first : Nat) (s : Section k)
    (bss : List Bytes) : Prop where
  contents : s.contents places = .ok bss
  stands : s.Stands (layoutOf k first (bss.map List.length))
  span : spanOf k first bss <+: image.toList.drop first

theorem IsStored.mono (h : s.IsStored places image first bss)
    (himage : image.toList <+: image'.toList) : s.IsStored places image' first bss :=
  ⟨h.contents, h.stands, h.span.trans (himage.drop first)⟩

theorem IsStored.length (h : s.IsStored places image first bss) : bss.length = s.order.size := by
  rw [length_of_mapM h.contents, Array.length_toList]

/-- Entries of one length that ends at an aligned offset leave no gap. -/
theorem getElem?_startsFrom {width i : Nat} {sizes : List Nat} (cursor : Nat)
    (hw : k.alignment ∣ width)
    (hsizes : ∀ size ∈ sizes, size = width) (hi : i < sizes.length) :
    (startsFrom k cursor sizes)[i]? = some (alignUp cursor k.alignment + i * width) := by
  induction sizes generalizing cursor i with
  | nil => exact absurd hi (by simp)
  | cons size sizes ih =>
    obtain rfl := hsizes size (List.mem_cons_self ..)
    cases i with
    | zero => simp [startsFrom]
    | succ i =>
      have hnext := ih (alignUp cursor k.alignment + size)
        (fun n hn => hsizes n (List.mem_cons_of_mem _ hn)) (Nat.lt_of_succ_lt_succ hi)
      rw [startsFrom, List.getElem?_cons_succ, hnext,
        alignUp_of_dvd (Nat.dvd_add (dvd_alignUp k cursor) hw), Nat.succ_mul]
      congr 1
      omega

/-- Where an item starts in the file: an entry of a table stands at its number, and the position of
any other item is its offset. -/
def offsetOf? (s : Section k) (h : Handle k) : Option Nat :=
  if k.isIndexed then do return (← s.offset?) + (← s.position? h) * k.entrySize?.getD 0
  else s.position? h

/-- An entry stands where its number says. -/
theorem Stands.offsetOf?_of_isIndexed {sizes : List Nat} (hk : k.isIndexed = true)
    (hs : s.WellFormed) (hsingle : k.isSingleton = true → s.items.size = 1)
    (hsizes : s.sizes places = .ok sizes) (h : s.Stands (layoutOf k first sizes)) {i : Nat}
    (hi : i < s.order.toList.length) :
    s.offsetOf? ⟨s.order.toList[i]⟩ = (startsFrom k first sizes)[i]? := by
  have hlen : sizes.length = s.order.size := by rw [length_of_mapM hsizes, Array.length_toList]
  have hi' : i < sizes.length := by simpa [hlen] using hi
  have hne : sizes.isEmpty = false := by
    rw [List.isEmpty_eq_false_iff, ← List.length_pos_iff]
    omega
  have hoffset : s.offset? = some (alignUp first k.alignment) := by
    rw [h.offset?, layoutOf, hne]
    rfl
  rw [Section.offsetOf?, if_pos hk, hoffset, h.position?_of_isIndexed hk hlen hi]
  simp only [Option.bind_eq_bind, Option.bind_some, pure]
  rcases Kind.isSingleton_or_entrySize? hk with hsingleton | ⟨width, hwidth, hdvd⟩
  · have hsize := hs.length_order
    rw [hsingle hsingleton] at hsize
    obtain rfl : i = 0 := by omega
    cases sizes with
    | nil => cases hne
    | cons size sizes => simp [startsFrom]
  · rw [hwidth, getElem?_startsFrom _ hdvd (fun size hsize => ?_) hi']
    · rfl
    · obtain ⟨id, -, hid⟩ := exists_of_mem_mapM hsizes hsize
      obtain ⟨x, -, hx⟩ := bind_eq_ok.1 hid
      rw [Content.size_of_entrySize? hwidth] at hx
      exact (Except.ok.inj hx).symm

/-- A data item stands at its position. -/
theorem Stands.offsetOf?_of_not_isIndexed {sizes : List Nat} (hk : ¬k.isIndexed = true)
    (hsizes : s.sizes places = .ok sizes) (h : s.Stands (layoutOf k first sizes)) {i : Nat}
    (hi : i < s.order.toList.length) :
    s.offsetOf? ⟨s.order.toList[i]⟩ = (startsFrom k first sizes)[i]? := by
  have hlen : sizes.length = s.order.size := by rw [length_of_mapM hsizes, Array.length_toList]
  have hne : sizes.isEmpty = false := by
    rw [Array.length_toList] at hi
    rw [List.isEmpty_eq_false_iff, ← List.length_pos_iff]
    omega
  have hget := congrArg (·[i]?) h.positions
  rw [positionsInOrder_eq] at hget
  simp only [List.getElem?_map, List.getElem?_eq_getElem hi, layoutOf, hne, hk,
    startsFrom_alignUp] at hget
  rw [Section.offsetOf?, if_neg hk]
  cases hstart : (startsFrom k first sizes)[i]? with
  | none => simp [hstart] at hget
  | some start => simpa [hstart] using hget

theorem Stands.offsetOf?_eq {sizes : List Nat} (hs : s.WellFormed)
    (hsingle : k.isSingleton = true → s.items.size = 1) (hsizes : s.sizes places = .ok sizes)
    (h : s.Stands (layoutOf k first sizes)) {i : Nat} (hi : i < s.order.toList.length) :
    s.offsetOf? ⟨s.order.toList[i]⟩ = (startsFrom k first sizes)[i]? := by
  by_cases hk : k.isIndexed = true
  · exact h.offsetOf?_of_isIndexed hk hs hsingle hsizes hi
  · exact h.offsetOf?_of_not_isIndexed hk hsizes hi

/-- The item with a number, its offset and its bytes. -/
theorem IsStored.exists_item (hs : s.WellFormed)
    (hsingle : k.isSingleton = true → s.items.size = 1) (h : s.IsStored places image first bss)
    {i : Nat} (hi : i < s.order.toList.length) :
    ∃ x start bs, s.get ⟨s.order.toList[i]⟩ = .ok x ∧ s.offsetOf? ⟨s.order.toList[i]⟩ = some start ∧
      Content.write places k x = .ok bs ∧ bs <+: image.toList.drop start ∧
      (startsFrom k first (bss.map List.length))[i]? = some start ∧ bss[i]? = some bs := by
  have hlt : i < bss.length := by simpa [h.length] using hi
  have hlt' : i < (startsFrom k first (bss.map List.length)).length := by simpa using hlt
  have hbytes := (mapM_eq_ok.1 h.contents).get hi hlt
  obtain ⟨x, hx, hwrite⟩ := bind_eq_ok.1 hbytes
  have hprefix := (stands_of_spanOf h.span).get hlt' hlt
  refine ⟨x, _, bss[i], hx, ?_, hwrite, hprefix, List.getElem?_eq_getElem hlt',
    List.getElem?_eq_getElem hlt⟩
  rw [h.stands.offsetOf?_eq hs hsingle (sizes_of_contents h.contents) hi,
    List.getElem?_eq_getElem hlt']
  rfl

end Section

namespace Container

variable {c d : Container} {ks : List Kind} {start finish : Nat} {out image : Image}

/-! ### Sections -/

theorem writeSections_cons_eq_ok : c.writeSections (k :: ks) out = .ok image ↔
    ∃ bss, (c.sectionOf k).contents c.places = .ok bss ∧
      c.writeSections ks (Section.appendAll k out bss) = .ok image := by
  rw [writeSections, List.foldlM_cons, bind_eq_ok]
  simp only [Section.write_eq_ok]
  constructor
  · rintro ⟨_, ⟨bss, hbss, rfl⟩, h⟩
    exact ⟨bss, hbss, h⟩
  · rintro ⟨bss, hbss, h⟩
    exact ⟨_, ⟨bss, hbss, rfl⟩, h⟩

/-- What the first section of a stack adds to an image that ends where the stack starts. -/
theorem isStored_appendAll {sizes : List Nat} {bss : List Bytes}
    (hsizes : (c.sectionOf k).sizes c.places = .ok sizes)
    (hstands : (c.sectionOf k).Stands (Section.layoutOf k start sizes))
    (hbss : (c.sectionOf k).contents c.places = .ok bss) (hsize : out.size = start) :
    (c.sectionOf k).IsStored c.places (Section.appendAll k out bss) start bss ∧
      (Section.appendAll k out bss).size = (Section.layoutOf k start sizes).next := by
  obtain rfl := Except.ok.inj (hsizes.symm.trans (Section.sizes_of_contents hbss))
  refine ⟨⟨hbss, hstands, ?_⟩, ?_⟩
  · rw [Section.toList_appendAll, ← hsize, ← Array.length_toList, List.drop_left]
  · rw [Section.size_appendAll, hsize, Section.next_layoutOf]

theorem of_writeSections (h : c.Stacked ks start finish)
    (hwrite : c.writeSections ks out = .ok image) (hsize : out.size = start) :
    image.size = finish ∧ out.toList <+: image.toList ∧
      ∀ k ∈ ks, ∃ first bss, start ≤ first ∧
        (c.sectionOf k).IsStored c.places image first bss := by
  induction ks generalizing start out with
  | nil =>
    cases hwrite
    exact ⟨hsize.trans h, List.prefix_rfl, fun k hk => absurd hk (by simp)⟩
  | cons k ks ih =>
    obtain ⟨sizes, hsizes, hstands, h⟩ := h
    obtain ⟨bss, hbss, hwrite⟩ := writeSections_cons_eq_ok.1 hwrite
    obtain ⟨hstored, hnext⟩ := isStored_appendAll hsizes hstands hbss hsize
    obtain ⟨hfinish, hprefix, hrest⟩ := ih h hwrite hnext
    refine ⟨hfinish, (Section.prefix_appendAll k out bss).trans hprefix, fun j hj => ?_⟩
    rcases List.mem_cons.1 hj with rfl | hj
    · exact ⟨start, bss, Nat.le_refl _, hstored.mono hprefix⟩
    · obtain ⟨first, bss, hfirst, hj⟩ := hrest j hj
      refine ⟨first, bss, Nat.le_trans ?_ hfirst, hj⟩
      rw [Section.next_layoutOf]
      exact Section.le_finishFrom _ _ _

/-- The item takes the byte at an offset. -/
def Covers (c : Container) (h : Handle k) (i : Nat) : Prop :=
  ∃ x start size, c.get h = .ok x ∧ (c.sectionOf k).offsetOf? h = some start ∧
    Content.size c.places k x = .ok size ∧ start ≤ i ∧ i < start + size

theorem image_eq_ok : c.image = .ok image ↔
    ∃ out, c.writeSections (.header :: Kind.tables ++ Kind.dataOrder) #[] = .ok out ∧
      c.writeSections [.mapList] (Section.pad Kind.mapList.alignment out) = .ok image :=
  bind_eq_ok

theorem mem_of_ne_mapList (hk : k ≠ .mapList) :
    k ∈ .header :: Kind.tables ++ Kind.dataOrder := by
  revert hk
  cases k <;> decide

/-- An image that was written holds every section as it was laid out, the header at the start and
all others behind it. -/
theorem of_image {dataEnd : Nat} (hc : c.SectionsWellFormed) (hs : c.HasSingletons)
    (h : c.LaidOut dataEnd) (himage : c.image = .ok image) :
    image.size = c.header.fileSize ∧ ∀ k, ∃ first bss,
      (c.sectionOf k).IsStored c.places image first bss ∧
        if k = .header then first = 0 else Header.length ≤ first := by
  obtain ⟨out, hout, hmap⟩ := image_eq_ok.1 himage
  obtain ⟨sizes, hsizes, hstands, htables⟩ := h.tables
  obtain ⟨bss, hbss, hout⟩ := writeSections_cons_eq_ok.1 hout
  obtain ⟨hheader, hnext⟩ := isStored_appendAll hsizes hstands hbss
    (rfl : (#[] : Image).size = 0)
  rw [Section.sizes_of_size_one (hc _) hs.header hs.get?_header] at hsizes
  cases hsizes
  obtain ⟨hsize, hprefix, hstored⟩ := of_writeSections (stacked_append htables h.data) hout hnext
  have hlength : (Section.layoutOf .header 0 [Header.length]).next = Header.length := rfl
  have hpad : (Section.pad Kind.mapList.alignment out).size = c.header.mapOffset := by
    rw [Section.size_pad, hsize, h.mapOffset]
  obtain ⟨hfile, hprefix', hstored'⟩ := of_writeSections h.map hmap hpad
  have hprefix' : out.toList <+: image.toList := by
    refine List.IsPrefix.trans ?_ hprefix'
    rw [Section.toList_pad]
    exact List.prefix_append _ _
  refine ⟨hfile, fun k => ?_⟩
  by_cases hkh : k = .header
  · subst hkh
    exact ⟨0, bss, hheader.mono (List.IsPrefix.trans hprefix hprefix'), rfl⟩
  · simp only [if_neg hkh]
    by_cases hk : k = .mapList
    · obtain ⟨first, bss, hfirst, hk⟩ := hstored' k (List.mem_singleton.2 hk)
      refine ⟨first, bss, hk, Nat.le_trans ?_ hfirst⟩
      have hle := (Array.length_toList ▸ Array.length_toList ▸ hprefix.length_le : _ ≤ out.size)
      rw [hnext, hlength] at hle
      have hmapOffset := Section.le_alignUp .mapList out.size
      rw [Section.size_pad] at hpad
      omega
    · obtain ⟨first, bss, hfirst, hk⟩ := hstored k (by
        revert hk hkh
        cases k <;> decide)
      exact ⟨first, bss, hk.mono hprefix', hfirst⟩

theorem LaidOut.stands {dataEnd : Nat} (h : c.LaidOut dataEnd) (k : Kind) :
    ∃ first sizes, (c.sectionOf k).sizes c.places = .ok sizes ∧
      (c.sectionOf k).Stands (Section.layoutOf k first sizes) := by
  by_cases hk : k = .mapList
  · obtain ⟨first, sizes, -, hsizes, hstands, -⟩ := h.map.stands (List.mem_singleton.2 hk)
    exact ⟨first, sizes, hsizes, hstands⟩
  · obtain ⟨first, sizes, -, hsizes, hstands, -⟩ :=
      (stacked_append h.tables h.data).stands (mem_of_ne_mapList hk)
    exact ⟨first, sizes, hsizes, hstands⟩

theorem LaidOut.isPlaced {dataEnd : Nat} (hc : c.SectionsWellFormed) (h : c.LaidOut dataEnd)
    {x : Handle k} (hx : c.Resolves k x) : c.places.IsPlaced k x := by
  obtain ⟨first, sizes, -, hstands⟩ := h.stands k
  exact hstands.exists_position (hc k) (resolves_iff.1 hx)

theorem exists_writeSections (h : ∀ k, ∃ bss, (c.sectionOf k).contents c.places = .ok bss)
    (ks : List Kind) (out : Image) : ∃ image, c.writeSections ks out = .ok image := by
  induction ks generalizing out with
  | nil => exact ⟨out, rfl⟩
  | cons k ks ih =>
    obtain ⟨bss, hbss⟩ := h k
    obtain ⟨image, himage⟩ := ih (Section.appendAll k out bss)
    exact ⟨image, writeSections_cons_eq_ok.2 ⟨bss, hbss, himage⟩⟩

/-- A container that is laid out can be written when no handle in it leads nowhere. -/
theorem exists_image {dataEnd : Nat} (hc : c.Coherent) (hclosed : c.Closed)
    (h : c.LaidOut dataEnd) : ∃ image, c.image = .ok image := by
  have hcontents : ∀ k, ∃ bss, (c.sectionOf k).contents c.places = .ok bss := by
    intro k
    refine exists_mapM_eq_ok fun id hid => ?_
    obtain ⟨x, hx⟩ := resolves_iff.2 ((hc.wellFormed k).mem_order.1 hid)
    have hplaced : Each c.places.IsPlaced (Content.handles k x) :=
      (hclosed k ⟨id⟩ x hx).mono fun j y => h.isPlaced hc.wellFormed
    obtain ⟨bs, hbs⟩ := Content.exists_write hplaced ((hc.sections k).items _ x hx).check
    exact ⟨bs, by rw [Section.bytesOf, Section.get_eq_ok.2 hx]; exact hbs⟩
  obtain ⟨out, hout⟩ :=
    exists_writeSections hcontents (.header :: Kind.tables ++ Kind.dataOrder) #[]
  obtain ⟨image, himage⟩ := exists_writeSections hcontents [.mapList]
    (Section.pad Kind.mapList.alignment out)
  exact ⟨image, image_eq_ok.2 ⟨out, hout, himage⟩⟩

/-! ### Where everything stands -/

theorem HasSingletons.size_one (hs : c.HasSingletons) (hk : k.isSingleton = true) :
    (c.sectionOf k).items.size = 1 := by
  cases k <;> first | exact hs.header | exact hs.map | cases hk

/-- A singleton stands where its section is laid out. -/
theorem offsetOf?_first {start finish : Nat} (hc : c.SectionsWellFormed) (hs : c.HasSingletons)
    (hk : k.isSingleton = true) (hd : k.alignment ∣ start)
    (h : c.Stacked (k :: ks) start finish) :
    (c.sectionOf k).offsetOf? (Container.first k) = some start := by
  obtain ⟨sizes, hsizes, hstands, -⟩ := h
  have hindexed := Kind.isIndexed_of_isSingleton hk
  have horder := Section.order_of_size_one (hc k) (hs.size_one hk)
  have hlen : sizes.length = 1 := by
    rw [length_of_mapM hsizes, horder]
    rfl
  obtain ⟨size, rfl⟩ := List.length_eq_one_iff.1 hlen
  have hsize : (c.sectionOf k).order.size = 1 := by
    rw [← Array.length_toList, horder]
    rfl
  have hposition := hstands.position?_of_isIndexed hindexed (hlen.trans hsize.symm) (i := 0)
    (by rw [horder]; decide)
  simp only [horder, List.getElem_cons_zero] at hposition
  have hentry : k.entrySize? = none := by
    revert hk
    cases k <;> decide
  rw [Section.offsetOf?, if_pos hindexed, hstands.offset?, hentry]
  have hoffset : (Section.layoutOf k start [size]).offset? = some start := by
    simp [Section.layoutOf, Section.alignUp_of_dvd hd]
  rw [hoffset]
  simp [Container.first, hposition]

theorem numbers_of_laidOut {dataEnd : Nat} (h : c.LaidOut dataEnd) (hk : k.isIndexed = true)
    {i : Nat}
    {x : Handle k} (hx : (c.sectionOf k).handles[i]? = some x) : c.position? x = some i := by
  obtain ⟨first, sizes, hsizes, hstands⟩ := h.stands k
  have hlen := (length_of_mapM hsizes).trans (Array.length_toList ..)
  rw [Section.handles, List.getElem?_map] at hx
  obtain ⟨id, hid, rfl⟩ := Option.map_eq_some_iff.1 hx
  obtain ⟨hi, rfl⟩ := List.getElem?_eq_some_iff.1 hid
  exact hstands.position?_of_isIndexed hk hlen hi

/-- The bytes of an item stand in the image from the offset of the item on. -/
theorem exists_bytes_of_image {dataEnd : Nat} (hc : c.SectionsWellFormed) (hs : c.HasSingletons)
    (h : c.LaidOut dataEnd) (himage : c.image = .ok image) {y : Handle k} {x : Content k}
    (hx : c.get y = .ok x) : ∃ start bs, (c.sectionOf k).offsetOf? y = some start ∧
      Content.write c.places k x = .ok bs ∧ bs <+: image.toList.drop start := by
  obtain ⟨first, bss, hstored, -⟩ := (of_image hc hs h himage).2 k
  have hmem := (hc k).mem_order.2 (resolves_iff.1 ⟨x, get_eq_ok.1 hx⟩)
  obtain ⟨j, hj, hid⟩ := List.getElem_of_mem hmem
  obtain ⟨x', start, bs, hx', hoffset, hbytes, hprefix, -, -⟩ :=
    hstored.exists_item (hc k) hs.size_one hj
  rw [hid] at hx' hoffset
  obtain rfl : x = x' := Except.ok.inj (hx.symm.trans hx')
  exact ⟨start, bs, hoffset, hbytes, hprefix⟩

end Container

end DexContainer
