import DexContainer.Container.Reading
import DexContainer.Proofs.Container.Writing
import DexContainer.Proofs.Reads

/-! What the header and the map of a container that is laid out say. Main statements:
`bounded_of_laidOut`, the positions of a file shorter than a word can count fit into words;
`rowOf_mapEntries`, the directory names every section that holds an item, with its offset and its
number of items; and `checkBounds_of_laidOut`, each of these rows lies within the file. -/

namespace DexContainer

variable {k : Kind}

theorem Section.add_le_finishFrom {width : Nat} (cursor : Nat) {sizes : List Nat}
    (h : ∀ size ∈ sizes, width ≤ size) :
    cursor + width * sizes.length ≤ Section.finishFrom k cursor sizes := by
  induction sizes generalizing cursor with
  | nil => simp [Section.finishFrom]
  | cons size sizes ih =>
    have hsize := h size (List.mem_cons_self ..)
    have hrest := ih (alignUp cursor k.alignment + size)
      fun n hn => h n (List.mem_cons_of_mem _ hn)
    have hle := Section.le_alignUp k cursor
    rw [Section.finishFrom, List.length_cons, Nat.mul_succ]
    omega

/-- The entries of a table are as long as the table says. -/
theorem Section.width_le_of_mem_sizes {places : Places} {s : Section k} {sizes : List Nat}
    {size : Nat} (h : s.sizes places = .ok sizes) (hsize : size ∈ sizes) :
    k.entrySize?.getD 0 ≤ size := by
  obtain ⟨id, -, hid⟩ := exists_of_mem_mapM h hsize
  obtain ⟨x, -, hx⟩ := bind_eq_ok.1 hid
  cases hk : k.entrySize? with
  | none => exact Nat.zero_le _
  | some width =>
    rw [Content.size_of_entrySize? hk] at hx
    exact Nat.le_of_eq (Except.ok.inj hx)

theorem Section.pos_of_mem_sizes {places : Places} {s : Section k} {sizes : List Nat} {size : Nat}
    (h : s.sizes places = .ok sizes) (hsize : size ∈ sizes) : 1 ≤ size := by
  obtain ⟨id, -, hid⟩ := exists_of_mem_mapM h hsize
  obtain ⟨x, -, hx⟩ := bind_eq_ok.1 hid
  exact Content.size_pos hx

/-- The items of a section stand behind its offset. -/
theorem Section.Stands.offset_add_le {places : Places} {s : Section k} {first width : Nat}
    {sizes : List Nat} (h : s.Stands (Section.layoutOf k first sizes)) (hs : s.WellFormed)
    (hsizes : s.sizes places = .ok sizes) (hwidth : ∀ size ∈ sizes, width ≤ size) :
    s.offset?.getD 0 + width * s.items.size ≤ Section.finishFrom k first sizes := by
  have hlength := length_of_mapM hsizes
  rw [hs.length_order] at hlength
  rw [h.offset?, ← hlength]
  cases hnil : sizes with
  | nil => simp [Section.layoutOf]
  | cons size rest =>
    have hle := Section.add_le_finishFrom (k := k) (alignUp first k.alignment) hwidth
    rw [hnil] at hle
    have hfinish : Section.finishFrom k (alignUp first k.alignment) (size :: rest) =
        Section.finishFrom k first (size :: rest) := by
      rw [Section.finishFrom, Section.finishFrom, Section.alignUp_alignUp]
    rw [hfinish] at hle
    exact hle

namespace Container

variable {c : Container} {dataEnd offset : Nat}

/-! ### Bounds -/

theorem LaidOut.le_mapOffset (h : c.LaidOut dataEnd) : dataEnd ≤ c.header.mapOffset := by
  rw [h.mapOffset]
  exact Section.le_alignUp .mapList dataEnd

theorem LaidOut.mapOffset_lt (hc : c.SectionsWellFormed) (hs : c.HasSingletons)
    (h : c.LaidOut dataEnd) : c.header.mapOffset + 4 ≤ c.header.fileSize := by
  obtain ⟨sizes, hsizes, -, hnext⟩ := h.map
  rw [Section.sizes_of_size_one (hc _) hs.map hs.get?_map] at hsizes
  cases hsizes
  have hle := Section.le_alignUp .mapList c.header.mapOffset
  rw [← hnext, Section.next_layoutOf, Section.finishFrom, Section.finishFrom, MapList.size]
  omega

/-- The first section is the header. -/
theorem Stacked.of_header {ks : List Kind} {finish : Nat} (hc : c.SectionsWellFormed)
    (hs : c.HasSingletons) (h : c.Stacked (.header :: ks) 0 finish) :
    c.Stacked ks Header.length finish := by
  obtain ⟨sizes, hsizes, -, hks⟩ := h
  rw [Section.sizes_of_size_one (hc _) hs.header hs.get?_header] at hsizes
  cases hsizes
  rw [Section.next_layoutOf] at hks
  exact hks

theorem LaidOut.header_stands (hc : c.SectionsWellFormed) (hs : c.HasSingletons)
    (h : c.LaidOut dataEnd) : c.Stacked Kind.tables Header.length c.header.dataOffset :=
  h.tables.of_header hc hs

/-- Every section but the header and the map stands between these two. -/
theorem LaidOut.stands_within (hc : c.SectionsWellFormed) (hs : c.HasSingletons)
    (h : c.LaidOut dataEnd) (hk : k.isSingleton = false) :
    ∃ first sizes, Header.length ≤ first ∧ (c.sectionOf k).sizes c.places = .ok sizes ∧
      (c.sectionOf k).Stands (Section.layoutOf k first sizes) ∧
      Section.finishFrom k first sizes ≤ c.header.mapOffset := by
  have hmem : k ∈ Kind.tables ++ Kind.dataOrder := by
    revert hk
    cases k <;> decide
  have hstacked := stacked_append (h.header_stands hc hs) h.data
  obtain ⟨first, sizes, hfirst, hsizes, hstands, hfinish⟩ := hstacked.stands hmem
  rw [Section.next_layoutOf] at hfinish
  exact ⟨first, sizes, hfirst, hsizes, hstands, Nat.le_trans hfinish h.le_mapOffset⟩

/-- A data item stands behind the header and before the map. -/
theorem LaidOut.position_within (hc : c.SectionsWellFormed) (hs : c.HasSingletons)
    (h : c.LaidOut dataEnd) (hk : k.isIndexed = false) {x : Handle k} {n : Nat}
    (hn : c.position? x = some n) : Header.length ≤ n ∧ n ≤ c.header.mapOffset := by
  have hsingle : k.isSingleton = false := by
    revert hk
    cases k <;> decide
  obtain ⟨first, sizes, hfirst, -, hstands, hfinish⟩ := h.stands_within hc hs hsingle
  have hlt : x.id < (c.sectionOf k).items.size := (hc k).lt_of_position? hn
  have hmem : some n ∈ (c.sectionOf k).positionsInOrder := by
    rw [Section.positionsInOrder_eq, ← hn]
    exact List.mem_map_of_mem (f := fun id => (c.sectionOf k).position? ⟨id⟩)
      ((hc k).mem_order.2 hlt)
  rw [hstands.positions] at hmem
  obtain ⟨m, hm, heq⟩ := List.mem_map.1 hmem
  obtain rfl := Option.some.inj heq
  have hm : m ∈ Section.startsFrom k first sizes := by
    cases sizes with
    | nil => exact absurd hm (by simp [Section.layoutOf])
    | cons size sizes => simpa [Section.layoutOf, hk, Section.startsFrom_alignUp] using hm
  obtain ⟨i, hi, rfl⟩ := List.getElem_of_mem hm
  have hi' : i < sizes.length := by simpa using hi
  obtain ⟨hle, hend⟩ := (Section.forall₂_startsFrom k first sizes).get hi hi'
  simp only [List.get_eq_getElem] at hle hend
  omega

/-- The items of a section, of a byte each at least, stand between its offset and the map. -/
theorem LaidOut.offset_add_le (hc : c.SectionsWellFormed) (hs : c.HasSingletons)
    (h : c.LaidOut dataEnd) (hk : k.isSingleton = false) :
    (c.sectionOf k).offset?.getD 0 + (c.sectionOf k).items.size ≤ c.header.mapOffset ∧
      (c.sectionOf k).offset?.getD 0 + k.entrySize?.getD 0 * (c.sectionOf k).items.size ≤
        c.header.mapOffset := by
  obtain ⟨first, sizes, -, hsizes, hstands, hfinish⟩ := h.stands_within hc hs hk
  have hcount := hstands.offset_add_le (hc k) hsizes fun _ => Section.pos_of_mem_sizes hsizes
  have htable := hstands.offset_add_le (hc k) hsizes fun _ => Section.width_le_of_mem_sizes hsizes
  rw [Nat.one_mul] at hcount
  exact ⟨Nat.le_trans hcount hfinish, Nat.le_trans htable hfinish⟩

/-- A section starts before the map and holds no more items than there are bytes before it. -/
theorem LaidOut.count_le (hc : c.SectionsWellFormed) (hs : c.HasSingletons)
    (h : c.LaidOut dataEnd) (hk : k.isSingleton = false) :
    (c.sectionOf k).items.size ≤ c.header.mapOffset ∧
      (c.sectionOf k).offset?.getD 0 ≤ c.header.mapOffset := by
  have hle := (h.offset_add_le hc hs hk).1
  omega

/-- The number of an entry is below the number of entries, and a table ends before the map. -/
theorem LaidOut.index_within (hc : c.SectionsWellFormed) (hs : c.HasSingletons)
    (h : c.LaidOut dataEnd) (hk : k.isIndexed = true) {x : Handle k} {n : Nat}
    (hn : c.position? x = some n) :
    n < (c.sectionOf k).items.size ∧ n ≤ c.header.mapOffset := by
  have hlt : x.id < (c.sectionOf k).items.size := (hc k).lt_of_position? hn
  obtain ⟨i, hi, hid⟩ := List.getElem_of_mem ((hc k).mem_order.2 hlt)
  have hx : (c.sectionOf k).handles[i]? = some x := by
    rw [Section.handles, List.getElem?_map, List.getElem?_eq_getElem hi, hid]
    rfl
  have hin := numbers_of_laidOut h hk hx
  rw [hn] at hin
  obtain rfl := Option.some.inj hin
  rw [(hc k).length_order] at hi
  refine ⟨hi, ?_⟩
  by_cases hsingle : k.isSingleton = true
  · rw [hs.size_one hsingle] at hi
    omega
  · have hle := (h.count_le hc hs (Bool.not_eq_true _ ▸ hsingle)).1
    omega

/-- The header stands at the start. -/
theorem LaidOut.header_offset? (hc : c.SectionsWellFormed) (hs : c.HasSingletons)
    (h : c.LaidOut dataEnd) : (c.sectionOf .header).offset? = some 0 := by
  obtain ⟨sizes, hsizes, hstands, -⟩ := h.tables
  rw [Section.sizes_of_size_one (hc _) hs.header hs.get?_header] at hsizes
  cases hsizes
  exact hstands.offset?

/-- The map stands where the header says. -/
theorem LaidOut.map_offset? (hc : c.SectionsWellFormed) (hs : c.HasSingletons)
    (h : c.LaidOut dataEnd) : (c.sectionOf .mapList).offset? = some c.header.mapOffset := by
  obtain ⟨sizes, hsizes, hstands, -⟩ := h.map
  rw [Section.sizes_of_size_one (hc _) hs.map hs.get?_map] at hsizes
  cases hsizes
  have hdvd : Kind.mapList.alignment ∣ c.header.mapOffset := by
    rw [h.mapOffset]
    exact Section.dvd_alignUp .mapList dataEnd
  rw [hstands.offset?]
  simp [Section.layoutOf, Section.alignUp_of_dvd hdvd]

theorem LaidOut.offset_le (hc : c.SectionsWellFormed) (hs : c.HasSingletons)
    (h : c.LaidOut dataEnd) (k : Kind) :
    (c.sectionOf k).offset?.getD 0 ≤ c.header.mapOffset := by
  cases hk : k.isSingleton with
  | false => exact (h.count_le hc hs hk).2
  | true =>
    cases k with
    | header => rw [h.header_offset? hc hs]; exact Nat.zero_le _
    | mapList => rw [h.map_offset? hc hs]; exact Nat.le_refl _
    | _ => cases hk

theorem bounded_of_laidOut (hc : c.SectionsWellFormed) (hs : c.HasSingletons)
    (h : c.LaidOut dataEnd) (hlt : c.header.fileSize < 2 ^ 32) : c.places.Bounded := by
  have hmap := h.mapOffset_lt hc hs
  have hle : ∀ (k : Kind) (x : Handle k) (n : Nat), c.places.position? k x = some n →
      n ≤ c.header.mapOffset := by
    intro k x n hn
    cases hk : k.isIndexed with
    | false => exact (h.position_within hc hs hk hn).2
    | true => exact (h.index_within hc hs hk hn).2
  constructor
  · intro k x n hn
    have := hle k x n hn
    rw [Places.noIndex]
    omega
  · rintro k x _ hn hk rfl
    have := (h.position_within hc hs hk hn).1
    exact absurd this (by decide)

/-! ### Rows -/

/-- The row that stands for a section in the directory. -/
def row (c : Container) (mapOffset : Nat) : Kind → MapEntry
  | .mapList => ⟨.mapList, 1, mapOffset, 0⟩
  | k => (c.mapEntryOf k).asRead

theorem kind_row (c : Container) (mapOffset : Nat) (k : Kind) : (c.row mapOffset k).kind = k := by
  cases k <;> rfl

/-- The kinds that have a row. -/
def listed (c : Container) : List Kind :=
  Kind.readOrder.filter (fun k => k ≠ .mapList && (c.sectionOf k).size ≠ 0) ++ [.mapList]

theorem listed_nodup (c : Container) : c.listed.Nodup := by
  refine List.nodup_append.2 ⟨Kind.readOrder_nodup.filter _, List.nodup_singleton _, ?_⟩
  rintro j hj k hk rfl
  obtain rfl := List.mem_singleton.1 hk
  have := (List.mem_filter.1 hj).2
  simp at this

theorem length_mapEntries_le (c : Container) (mapOffset : Nat) :
    (c.mapEntries mapOffset).length ≤ 19 := by
  rw [mapEntries, List.length_mergeSort, List.length_append, List.length_map]
  exact Nat.succ_le_succ (List.length_filter_le _ Kind.readOrder)

theorem mem_listed : k ∈ c.listed ↔ k = .mapList ∨ (c.sectionOf k).items.size ≠ 0 := by
  have hread := Kind.mem_readOrder k
  rw [listed, List.mem_append, List.mem_filter, List.mem_singleton]
  by_cases hk : k = .mapList
  · simp [hk]
  · simp [hk, hread, Section.size]

/-- As it is read, the directory holds the rows of the kinds that have one. -/
theorem map_asRead_mapEntries_perm (c : Container) (mapOffset : Nat) :
    ((c.mapEntries mapOffset).map MapEntry.asRead).Perm (c.listed.map (c.row mapOffset)) := by
  rw [mapEntries, listed, List.map_append]
  refine ((List.mergeSort_perm _ _).map _).trans ?_
  rw [List.map_append, List.map_map]
  refine .append (.of_eq (List.map_congr_left fun k hk => ?_)) (.of_eq rfl)
  have := (List.mem_filter.1 hk).2
  cases k <;> first | rfl | simp at this

theorem find?_kind_of_nodup {es : List MapEntry} {e : MapEntry} (hn : (es.map (·.kind)).Nodup)
    (he : e ∈ es) : es.find? (·.kind == e.kind) = some e := by
  induction es with
  | nil => exact absurd he (by simp)
  | cons f es ih =>
    rw [List.map_cons, List.nodup_cons] at hn
    rcases List.mem_cons.1 he with rfl | he
    · simp
    · have hne : (f.kind == e.kind) = false := by
        rw [beq_eq_false_iff_ne]
        intro hkind
        exact hn.1 (hkind ▸ List.mem_map_of_mem he)
      rw [List.find?_cons, hne]
      exact ih hn.2 he

theorem kinds_nodup (c : Container) (mapOffset : Nat) :
    (((c.mapEntries mapOffset).map MapEntry.asRead).map (·.kind)).Nodup := by
  refine ((map_asRead_mapEntries_perm c mapOffset).map (·.kind)).nodup_iff.2 ?_
  have hkinds : (c.listed.map (c.row mapOffset)).map (·.kind) = c.listed := by
    rw [List.map_map]
    exact (List.map_congr_left fun k _ => kind_row c mapOffset k).trans (List.map_id _)
  rw [hkinds]
  exact listed_nodup c

/-- Where the sections are read that the directory of a container names. -/
theorem rowOf_mapEntries (hs : c.HasSingletons) (hheader : (c.sectionOf .header).offset? = some 0)
    (hmap : (c.sectionOf .mapList).offset? = some offset) (k : Kind) :
    rowOf ((c.mapEntries offset).map MapEntry.asRead) offset k =
      if (c.sectionOf k).items.size = 0 then none
      else some ((c.sectionOf k).offset?.getD 0, (c.sectionOf k).items.size) := by
  have hfind (k : Kind) (hk : k ≠ .mapList) :
      (((c.mapEntries offset).map MapEntry.asRead).find? (·.kind == k)).map
        (fun e => (e.offset, e.count)) = if (c.sectionOf k).items.size = 0 then none
      else some ((c.sectionOf k).offset?.getD 0, (c.sectionOf k).items.size) := by
    have hperm := map_asRead_mapEntries_perm c offset
    split
    · rename_i hsize
      have hnone : ((c.mapEntries offset).map MapEntry.asRead).find? (·.kind == k) = none := by
        refine List.find?_eq_none.2 fun e he => ?_
        obtain ⟨j, hj, rfl⟩ := List.mem_map.1 (hperm.mem_iff.1 he)
        rw [kind_row, beq_iff_eq]
        rintro rfl
        rcases mem_listed.1 hj with hj | hj
        · exact hk hj
        · exact hj hsize
      rw [hnone]
      rfl
    · rename_i hsize
      have hmem := hperm.mem_iff.2 (List.mem_map_of_mem (mem_listed.2 (.inr hsize)))
      have hsome := find?_kind_of_nodup (kinds_nodup c offset) hmem
      rw [kind_row] at hsome
      rw [hsome]
      cases k <;> first | rfl | exact absurd rfl hk
  cases k with
  | header =>
    rw [rowOf, hs.header, hheader]
    rfl
  | mapList =>
    rw [rowOf, hs.map, hmap]
    rfl
  | _ => exact hfind _ (by decide)

/-- The rows of a file shorter than a word can count hold words. -/
theorem LaidOut.map_isEncodable (hc : c.SectionsWellFormed) (hs : c.HasSingletons)
    (h : c.LaidOut dataEnd) (hlt : c.header.fileSize < 2 ^ 32) : c.map.IsEncodable := by
  have hmap := h.mapOffset_lt hc hs
  rw [h.entries]
  intro e he
  suffices hrow : e.asRead.count < 2 ^ 32 ∧ e.asRead.offset < 2 ^ 32 from ⟨hrow.1, hrow.2⟩
  obtain ⟨k, -, hk⟩ := List.mem_map.1
    ((map_asRead_mapEntries_perm c c.header.mapOffset).mem_iff.1 (List.mem_map_of_mem he))
  rw [← hk]
  have hcount : (c.sectionOf k).items.size < 2 ^ 32 := by
    cases hsingle : k.isSingleton with
    | true =>
      rw [hs.size_one hsingle]
      decide
    | false =>
      have := (h.count_le hc hs hsingle).1
      omega
  have hoffset := h.offset_le hc hs k
  cases k with
  | mapList => exact ⟨show 1 < 2 ^ 32 by decide, show c.header.mapOffset < 2 ^ 32 by omega⟩
  | _ => exact ⟨hcount, Nat.lt_of_le_of_lt hoffset (by omega)⟩

/-- Every row of the directory lies within the file. -/
theorem checkBounds_of_laidOut (hc : c.SectionsWellFormed) (hs : c.HasSingletons)
    (h : c.LaidOut dataEnd) {e : MapEntry}
    (he : e ∈ (c.mapEntries c.header.mapOffset).map MapEntry.asRead) :
    checkBounds e.kind e.offset e.count c.header.fileSize = .ok () := by
  have hmap := h.mapOffset_lt hc hs
  obtain ⟨k, hk, rfl⟩ := List.mem_map.1 ((map_asRead_mapEntries_perm c _).mem_iff.1 he)
  by_cases hmapList : k = .mapList
  · subst hmapList
    have hlt : c.header.mapOffset < c.header.fileSize := by omega
    simp only [row, checkBounds, Kind.entrySize?, Option.getD_none, Nat.zero_mul, Nat.add_zero]
    rw [if_neg (by decide), if_pos ⟨hlt, Nat.le_of_lt hlt⟩]
    rfl
  · have hsize : (c.sectionOf k).items.size ≠ 0 := (mem_listed.1 hk).resolve_left hmapList
    have hrow : (c.row c.header.mapOffset k) =
        ⟨k, (c.sectionOf k).items.size, (c.sectionOf k).offset?.getD 0, 0⟩ := by
      cases k <;> first | rfl | exact absurd rfl hmapList
    simp only [hrow, checkBounds, if_neg hsize]
    refine if_pos ?_
    by_cases hheader : k = .header
    · subst hheader
      rw [h.header_offset? hc hs]
      have hpos : 0 < c.header.fileSize := by omega
      exact ⟨hpos, by simp [Kind.entrySize?]⟩
    · have hsingle : k.isSingleton = false := by
        revert hmapList hheader
        cases k <;> decide
      obtain ⟨hcount, htable⟩ := h.offset_add_le hc hs hsingle
      omega

end Container

end DexContainer
