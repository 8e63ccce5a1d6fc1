import DexContainer.Proofs.Container.RowOrder
import DexContainer.Proofs.Item.Parallel
import DexContainer.Proofs.Section.Reading

/-! What the two runs of reading an image give, one keeping the signed form of registers and one
dropping it. The same faults are found, and the containers agree in all sections but that of debug
information; the two sections of debug information agree but for the marks on registers and the
index, which is made from the items. Main statement: `ofImage_parallel`. -/

namespace DexContainer

/-! ### Sections -/

namespace Section

instance deaf_decodeFound {k : Kind} [Deaf (Content.decode k)] : Deaf (decodeFound k) := by
  rw [decodeFound]
  infer_instance

theorem deaf {k : Kind} (hk : k ≠ .debugInfo) (count : Nat) : Deaf (decode k count) := by
  have := Content.deaf hk
  rw [decode]
  split
  · rw [decodeIndexed]
    infer_instance
  · rw [decodeData]
    infer_instance

/-- Debug information without marks on registers, found at the same place. -/
def Found.unmarked (x : Found .debugInfo) : Found .debugInfo :=
  { x with content := DebugInfo.unmarked x.content }

/-- The section without marks on registers. -/
def unmarked (s : Section .debugInfo) : Section .debugInfo :=
  { s with
    items := s.items.map DebugInfo.unmarked
    index := indexOf (s.items.map DebugInfo.unmarked) }

theorem parallel_decodeFound :
    Parallel Found.unmarked (decodeFound .debugInfo) (decodeFound .debugInfo) := by
  refine Deaf.bind_parallel fun _ => Deaf.bind_parallel fun offset => ?_
  refine DebugInfo.parallel.bind fun content => Deaf.bind_parallel fun h => ?_
  exact .pure ({ slot := h.id, offset, content } : Found .debugInfo)

theorem bySlot_unmarked (count : Nat) (found : List (Found .debugInfo)) :
    bySlot count (found.map Found.unmarked) =
      (bySlot count found).map (Option.map Found.unmarked) := by
  rw [bySlot, bySlot]
  have hfold (slots : Array (Option (Found .debugInfo))) :
      (found.map Found.unmarked).foldl (fun slots x => slots.setIfInBounds x.slot (some x))
        (slots.map (Option.map Found.unmarked)) =
      (found.foldl (fun slots x => slots.setIfInBounds x.slot (some x)) slots).map
        (Option.map Found.unmarked) := by
    induction found generalizing slots with
    | nil => rfl
    | cons x found ih =>
      rw [List.map_cons, List.foldl_cons, List.foldl_cons, ← ih, Array.map_setIfInBounds]
      rfl
  rw [← hfold, Array.map_replicate]
  rfl

theorem requireAll_unmarked (references : References) (slots : Array (Option (Found .debugInfo))) :
    requireAll references (slots.map (Option.map Found.unmarked)) =
      List.map Found.unmarked <$> requireAll references slots := by
  rw [requireAll, requireAll, map_mapM, Array.toList_map, List.zipIdx_map, mapM_map]
  refine mapM_congr fun x _ => ?_
  rcases x with ⟨_ | x, slot⟩ <;> rfl

theorem sectionOf_unmarked (found placed : List (Found .debugInfo)) (finish : Nat) :
    sectionOf (found.map Found.unmarked) (placed.map Found.unmarked) finish =
      (sectionOf found placed finish).unmarked := by
  have hcontents : (placed.map Found.unmarked).map (·.content) =
      (placed.map (·.content)).map DebugInfo.unmarked := by
    rw [List.map_map, List.map_map]
    rfl
  simp only [sectionOf, unmarked, List.map_toArray, hcontents, List.map_map, List.head?_map]
  cases found.head? <;> rfl

theorem decodeData_eq (k : Kind) (count : Nat) : decodeData k count = do
    let found ← Decoder.times count (decodeFound k)
    let finish ← Decoder.position
    let references ← Decoder.references
    let placed ←
      Decoder.ofExcept (requireAll references (bySlot (references.slotCount k) found))
    return sectionOf found placed finish := rfl

theorem parallel_decodeData (count : Nat) :
    Parallel unmarked (decodeData .debugInfo count) (decodeData .debugInfo count) := by
  rw [decodeData_eq]
  refine (parallel_decodeFound.times count).bind fun found => ?_
  refine Deaf.bind_parallel fun finish => Deaf.bind_parallel fun references => ?_
  rw [bySlot_unmarked]
  refine (Parallel.ofExcept (requireAll_unmarked references _)).bind fun placed => ?_
  rw [sectionOf_unmarked]
  exact .pure _

/-- What the section of a kind is without marks on registers. -/
def unmark : {k : Kind} → Section k → Section k
  | .debugInfo, s => s.unmarked
  | _, s => s

theorem parallel_decode (k : Kind) (count : Nat) :
    Parallel unmark (decode k count) (decode k count) := by
  by_cases hk : k = .debugInfo
  · subst hk
    exact parallel_decodeData count
  · have hdeaf := (deaf hk count).parallel
    have hunmark : (unmark : Section k → Section k) = id := by
      cases k <;> first | rfl | exact absurd rfl hk
    rwa [hunmark]

end Section

namespace Container

variable {c : Container}

/-- The container as it is without marks on registers. -/
def unmarked (c : Container) : Container :=
  { c.modifySection .debugInfo Section.unmarked with keepsSigned := false }

theorem sectionOf_unmarked (c : Container) (k : Kind) :
    c.unmarked.sectionOf k = (c.sectionOf k).unmark := by
  obtain ⟨sections, _, _, _⟩ := c
  cases sections
  cases k <;> rfl

theorem unmarked_modifySection (c : Container) (k : Kind) (s : Section k) :
    (c.modifySection k fun _ => s).unmarked = c.unmarked.modifySection k fun _ => s.unmark := by
  obtain ⟨sections, _, _, _⟩ := c
  cases sections
  cases k <;> rfl

theorem unmarked_empty (o : Options) :
    (empty o).unmarked = empty { o with preserveSignedRegisters := false } := by
  simp [unmarked, empty, modifySection, Sections.modify, Section.unmarked, Section.indexOf]
  rfl

theorem size_unmark {k : Kind} (s : Section k) : s.unmark.size = s.size := by
  cases k <;> first | rfl | exact Array.size_map

theorem header_unmarked (c : Container) : c.unmarked.header = c.header := by
  rw [header, header, sectionOf_unmarked]
  rfl

theorem map_unmarked (c : Container) : c.unmarked.map = c.map := by
  rw [map, map, sectionOf_unmarked]
  rfl

theorem checkReferences_unmarked (c : Container) (references : References) (k : Kind) :
    c.unmarked.checkReferences references k = c.checkReferences references k := by
  simp only [checkReferences, sectionOf_unmarked, size_unmark]

theorem parallel_decodeSection (c : Container) (k : Kind) (offset count : Nat) :
    Parallel unmarked (c.decodeSection k offset count)
      (c.unmarked.decodeSection k offset count) := by
  refine Deaf.bind_parallel fun _ => (Section.parallel_decode k count).bind fun s => ?_
  rw [← unmarked_modifySection]
  exact .pure _

theorem parallel_decodeRow (directory : List MapEntry) (mapOffset : Nat) (c : Container)
    (k : Kind) : Parallel unmarked (decodeRow directory mapOffset c k)
      (decodeRow directory mapOffset c.unmarked k) := by
  rw [decodeRow, decodeRow]
  split
  · exact .pure c
  · exact parallel_decodeSection c k _ _

theorem parallel_decode (r : RowOrder) (o : Options) : Parallel unmarked (decode r o)
    (decode r { o with preserveSignedRegisters := false }) := by
  refine Deaf.bind_parallel fun length => ?_
  rw [← unmarked_empty]
  refine (parallel_decodeSection (empty o) _ _ _).bind fun c => ?_
  dsimp only
  rw [header_unmarked]
  split
  · exact .throw_bind _ _ _
  · refine Deaf.bind_parallel fun _ => ?_
    refine (parallel_decodeSection c _ _ _).bind fun c => ?_
    rw [map_unmarked]
    refine Deaf.bind_parallel fun directory => ?_
    refine (Parallel.forM directory fun e => Deaf.parallel).bind fun _ => ?_
    refine (Parallel.foldlM Kind.readOrder (parallel_decodeRow directory _) c).bind fun c => ?_
    refine Deaf.bind_parallel fun references => ?_
    simp only [checkReferences_unmarked]
    refine (Parallel.forM Kind.readOrder fun k => Deaf.parallel).bind fun _ => ?_
    exact .pure c

/-- Two containers that agree but for the marks on the registers in debug information, which the
second one does not have, and what is made from them. -/
structure AgreesButMarks (c d : Container) : Prop where
  sections : ∀ k, k ≠ .debugInfo → d.sectionOf k = c.sectionOf k
  items : (d.sectionOf .debugInfo).items = (c.sectionOf .debugInfo).items.map DebugInfo.unmarked
  order : (d.sectionOf .debugInfo).order = (c.sectionOf .debugInfo).order
  positions : (d.sectionOf .debugInfo).positions = (c.sectionOf .debugInfo).positions
  offset? : (d.sectionOf .debugInfo).offset? = (c.sectionOf .debugInfo).offset?
  byteSize : (d.sectionOf .debugInfo).byteSize = (c.sectionOf .debugInfo).byteSize
  index : (c.sectionOf .debugInfo).index = Section.indexOf (c.sectionOf .debugInfo).items
  indexUnmarked : (d.sectionOf .debugInfo).index = Section.indexOf (d.sectionOf .debugInfo).items
  policy : d.policy = c.policy
  stage : d.stage = c.stage

theorem agreesButMarks_unmarked
    (hindex : (c.sectionOf .debugInfo).index = Section.indexOf (c.sectionOf .debugInfo).items) :
    c.AgreesButMarks c.unmarked := by
  have hdebug := sectionOf_unmarked c .debugInfo
  refine ⟨fun k hk => ?_, ?_, ?_, ?_, ?_, ?_, hindex, ?_, ?_, ?_⟩
  · rw [sectionOf_unmarked]
    cases k <;> first | rfl | exact absurd rfl hk
  all_goals first | rw [hdebug]; rfl | simp [unmarked]

/-- What is checked of an image before anything is read. -/
def checkImage (image : Image) (verifies : Bool) : Except Fault Unit :=
  if image.size < Header.length then throw (.bufferTooSmall image.size)
  else if verifies then Stamp.verify image else pure ()

theorem ofImage_eq (r : RowOrder) (image : Image) (o : Options) : ofImage r image o = (do
    checkImage image o.verifyIntegrity
    match decode r o { image, keepsSigned := o.preserveSignedRegisters } with
    | .ok c _ => return c
    | .error e _ => throw e) := by
  rw [ofImage, checkImage]
  by_cases hsize : image.size < Header.length
  · simp only [hsize, if_true]
    rfl
  · simp only [hsize, if_false]
    cases o.verifyIntegrity <;> rfl

/-- With the rows in one order, both runs refuse an image with the same fault, or both accept it. -/
theorem ofImage_parallel_of_order (r : RowOrder) (image : Image) (o : Options) :
    (∃ e, ofImage r image { o with preserveSignedRegisters := true } = .error e ∧
      ofImage r image { o with preserveSignedRegisters := false } = .error e) ∨
    ∃ c, ofImage r image { o with preserveSignedRegisters := true } = .ok c ∧
      ofImage r image { o with preserveSignedRegisters := false } = .ok c.unmarked := by
  rw [ofImage_eq r image { o with preserveSignedRegisters := false }, ofImage_eq]
  cases hcheck : checkImage image o.verifyIntegrity with
  | error e => exact .inl ⟨e, rfl, rfl⟩
  | ok _ =>
    rcases parallel_decode r { o with preserveSignedRegisters := true } { image } rfl with
      ⟨c, t, -, hok, hok'⟩ | ⟨e, t, t', herror, herror'⟩
    · refine .inr ⟨c, ?_, ?_⟩
      · simp only [hok]
        rfl
      · simp only [Source.dropping] at hok'
        simp only [hok']
        rfl
    · refine .inl ⟨e, ?_, ?_⟩
      · simp only [herror]
        rfl
      · simp only [Source.dropping] at herror'
        simp only [herror']
        rfl

/-- Whether the signed form of registers is preserved has no effect on anything but the marks: both
runs refuse an image, or both accept it. They refuse it with the same fault when the rows of the map
are checked in the same order; else the faults may be those of two rows outside of the image, of
which each run names the one that it finds first. -/
theorem ofImage_parallel (r r' : RowOrder) (image : Image) (o : Options) :
    (∃ e e', ofImage r image { o with preserveSignedRegisters := true } = .error e ∧
      ofImage r' image { o with preserveSignedRegisters := false } = .error e' ∧
      (r = r' → e = e') ∧ (e = e' ∨ HasStrayRows image false e e')) ∨
    ∃ c d, ofImage r image { o with preserveSignedRegisters := true } = .ok c ∧
      ofImage r' image { o with preserveSignedRegisters := false } = .ok d ∧
      c.keepsSigned = true ∧ d.keepsSigned = false ∧ c.AgreesButMarks d := by
  rcases ofImage_parallel_of_order r image o with ⟨e, he, he'⟩ | ⟨c, hc, hc'⟩
  · left
    rcases agreeUpTo_ofImage r r' image { o with preserveSignedRegisters := false } with
      hsame | ⟨f, f', hf, hf', hstray⟩
    · rw [hsame] at he'
      exact ⟨e, e, he, he', fun _ => rfl, .inl rfl⟩
    · obtain rfl := Except.error.inj (he'.symm.trans hf)
      refine ⟨e, f', he, hf', ?_, .inr hstray⟩
      rintro rfl
      exact Except.error.inj (hf.symm.trans hf')
  · exact .inr ⟨c, c.unmarked, hc, ofImage_of_ofImage hc', (isAccepted_of_ofImage hc).2.1, rfl,
      agreesButMarks_unmarked (index_of_ofImage hc rfl)⟩

/-- A map whose last two rows lie outside of any image of less than two gigabytes. -/
def strayRows : MapList :=
  ⟨[⟨.header, 1, 0, 0⟩, ⟨.stringId, 0, 0, 0⟩, ⟨.typeId, 0, 0, 0⟩, ⟨.protoId, 0, 0, 0⟩,
    ⟨.fieldId, 0, 0, 0⟩, ⟨.methodId, 1, 0x7fffffff, 0⟩, ⟨.classDef, 1, 0x7ffffffe, 0⟩]⟩

/-- A header and this map behind it. -/
def strayImage : Image :=
  (([0x64, 0x65, 0x78, 0x0a, 0x30, 0x33, 0x35, 0x00] : Bytes) ++ List.replicate 24 0 ++
    Word.full 200 ++ Word.full 112 ++ Word.full 0x12345678 ++ Word.full 0 ++ Word.full 0 ++
    Word.full 112 ++ List.replicate 56 0 ++ strayRows.write).toArray

/-- Two runs that check the rows in different orders name different ones. -/
theorem ofImage_strayImage :
    ofImage .stored strayImage { preserveSignedRegisters := true } =
      .error (.sectionOutOfBounds .methodId 0x7fffffff 200) ∧
    ofImage .reversed strayImage { preserveSignedRegisters := false } =
      .error (.sectionOutOfBounds .classDef 0x7ffffffe 200) := by
  have herror {r : RowOrder} {o : Options} {e : Fault}
      (h : (fun _ => ()) <$> ofImage r strayImage o = .error e) :
      ofImage r strayImage o = .error e := map_eq_error.1 h
  exact ⟨herror (by decide +kernel), herror (by decide +kernel)⟩

end Container

end DexContainer
