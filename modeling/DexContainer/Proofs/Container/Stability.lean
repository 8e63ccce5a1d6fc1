import DexContainer.Proofs.Container.Rewriting

/-! Writing one's own output again. A container that was read from an image that it would write
stands already where a layout puts it, so the layout ends in its first round and the image is
written byte for byte. Main statement: `toImage_of_ofImage`, an image that was written is written
again from what is read of it. -/

namespace DexContainer

namespace Container

variable {c d e g : Container} {k : Kind} {ks : List Kind} {ρ : Renaming} {o : Options}
  {dataOffset dataEnd mapOffset fileSize rounds : Nat} {image out : Image}

/-! ### Images -/

/-- What sections add to an image depends on their contents and on where they start. -/
theorem exists_tail_of_writeSections
    (hcontents : ∀ k ∈ ks, (d.sectionOf k).contents d.places = (c.sectionOf k).contents c.places)
    (h : c.writeSections ks out = .ok image) :
    ∃ tail, image.toList = out.toList ++ tail ∧ ∀ out' : Image, out'.size = out.size →
      ∃ image', d.writeSections ks out' = .ok image' ∧ image'.toList = out'.toList ++ tail := by
  induction ks generalizing out with
  | nil =>
    cases h
    exact ⟨[], (List.append_nil _).symm, fun out' _ => ⟨out', rfl, (List.append_nil _).symm⟩⟩
  | cons k ks ih =>
    obtain ⟨bss, hbss, h⟩ := writeSections_cons_eq_ok.1 h
    obtain ⟨tail, htail, hwrite⟩ := ih (fun j hj => hcontents j (List.mem_cons_of_mem k hj)) h
    refine ⟨Section.spanOf k out.size bss ++ tail, ?_, fun out' hsize => ?_⟩
    · rw [htail, Section.toList_appendAll, List.append_assoc]
    · obtain ⟨image', himage', htail'⟩ := hwrite (Section.appendAll k out' bss)
        (by rw [Section.size_appendAll, Section.size_appendAll, hsize])
      refine ⟨image', writeSections_cons_eq_ok.2 ⟨bss, ?_, himage'⟩, ?_⟩
      · rw [hcontents k List.mem_cons_self, hbss]
      · rw [htail', Section.toList_appendAll, hsize, List.append_assoc]

/-- Containers that differ in their headers only are written as images that differ in their headers
only. -/
theorem exists_tail_of_image_congr {bs bs' : Bytes} (himage : c.image = .ok image)
    (hc : (c.sectionOf .header).contents c.places = .ok [bs])
    (hd : (d.sectionOf .header).contents d.places = .ok [bs']) (hlength : bs'.length = bs.length)
    (hother : ∀ k, k ≠ .header →
      (d.sectionOf k).contents d.places = (c.sectionOf k).contents c.places) :
    ∃ tail image', image.toList = bs ++ tail ∧ d.image = .ok image' ∧
      image'.toList = bs' ++ tail := by
  have hspan (bs : Bytes) : (Section.appendAll .header #[] [bs]).toList = bs := by
    simp [Section.toList_appendAll, Section.spanOf, padding, alignUp_four, Kind.alignment]
  obtain ⟨mid, hmid, himage⟩ := image_eq_ok.1 himage
  obtain ⟨bss, hbss, hmid⟩ := writeSections_cons_eq_ok.1 hmid
  obtain rfl := Except.ok.inj (hc.symm.trans hbss)
  have hsections : ∀ k ∈ Kind.tables ++ Kind.dataOrder, k ≠ .header := by decide
  obtain ⟨tail, htail, hwrite⟩ := exists_tail_of_writeSections
    (fun k hk => hother k (hsections k hk)) hmid
  obtain ⟨mid', hmid', htail'⟩ := hwrite (Section.appendAll .header #[] [bs'])
    (by rw [← Array.length_toList, ← Array.length_toList, hspan, hspan, hlength])
  have hsize : mid'.size = mid.size := by
    rw [← Array.length_toList, ← Array.length_toList, htail, htail', hspan, hspan,
      List.length_append, List.length_append, hlength]
  obtain ⟨rows, hrows, hwriteMap⟩ := exists_tail_of_writeSections
    (fun k hk => hother k (by rw [List.mem_singleton.1 hk]; decide)) himage
  obtain ⟨image', himage', hrows'⟩ := hwriteMap (Section.pad Kind.mapList.alignment mid')
    (by rw [Section.size_pad, Section.size_pad, hsize])
  refine ⟨tail ++ (List.replicate (padding mid.size Kind.mapList.alignment) 0 ++ rows), image', ?_,
    image_eq_ok.2 ⟨mid', writeSections_cons_eq_ok.2 ⟨_, hd, hmid'⟩, himage'⟩, ?_⟩
  · rw [hrows, Section.toList_pad, htail, hspan]
    simp only [List.append_assoc]
  · rw [hrows', Section.toList_pad, htail', hspan, hsize]
    simp only [List.append_assoc]

/-! ### One's own output -/

/-- A copy with the map of the container that it is a copy of has the contents of that container. -/
theorem IsCopy.contents_withMap (h : c.IsCopy ρ g) (hs : c.HasSingletons) (hgs : g.HasSingletons)
    (k : Kind) : ((g.withMap c.map).sectionOf k).contents g.places =
      (c.sectionOf k).contents c.places := by
  by_cases hk : k = .mapList
  · subst hk
    rw [sectionOf_withMap, contents_replaceFirst (h.wellFormed_copy _) hgs.map,
      contents_of_size_one (h.wellFormed _) hs.map hs.get?_map]
    rfl
  · rw [sectionOf_withMap_of_ne _ hk, h.contents]

/-- The map and the header that a layout of a copy writes are those of the container that it is a
copy of. -/
theorem IsCopy.stampHeader_eq (h : c.IsCopy ρ g) (hc : c.LaidOut dataEnd) (hs : c.HasSingletons) :
    (g.withMap ⟨g.mapEntries (alignUp dataEnd Kind.mapList.alignment)⟩).stampHeader
        c.header.dataOffset (alignUp dataEnd Kind.mapList.alignment) c.header.fileSize =
      (g.withMap c.map).withHeader c.header := by
  have hheader : ({ (g.withMap c.map).header with
      dataOffset := c.header.dataOffset, mapOffset := c.header.mapOffset,
      fileSize := c.header.fileSize,
      dataSize := c.header.fileSize - c.header.dataOffset } : Header) = c.header := by
    rw [header_withMap, h.header hs, ← hc.dataSize]
  rw [← hc.mapOffset, h.mapEntries, ← hc.entries, stampHeader, hheader, withHeader]

/-- A layout of a copy leads to the contents of the container that it is a copy of. -/
theorem IsCopy.contents_of_placeWithin (h : c.IsCopy ρ g) (hc : c.LaidOut dataEnd)
    (hs : c.HasSingletons) (hgs : g.HasSingletons) (k : Kind) :
    let d : Container := { (g.withMap
      ⟨g.mapEntries (alignUp dataEnd Kind.mapList.alignment)⟩).stampHeader c.header.dataOffset
        (alignUp dataEnd Kind.mapList.alignment) c.header.fileSize with stage := .placed }
    (d.sectionOf k).contents d.places = (c.sectionOf k).contents c.places := by
  rw [h.stampHeader_eq hc hs]
  intro d
  have hplaces : d.places = g.places :=
    (places_withHeader (c := g.withMap c.map) c.header).trans (places_withMap c.map)
  have hheader : (g.withMap c.map).header = c.header :=
    (header_withMap c.map).trans (h.header hs)
  have hsection : d.sectionOf k =
      ((g.withMap c.map).withHeader (g.withMap c.map).header).sectionOf k := by
    rw [hheader]
    rfl
  rw [hplaces, hsection,
    contents_withHeader_self (h.wellFormed_copy.withMap _) (hgs.withMap _),
    h.contents_withMap hs hgs]

/-- The image of a container under other integrity fields is stamped as its own image. -/
theorem exists_image_withHeader (hwf : c.SectionsWellFormed) (hs : c.HasSingletons)
    (himage : c.image = .ok out) (checksum : UInt32) (signature : Vector UInt8 20) :
    ∃ out', (c.withHeader (c.header.sealed checksum signature)).image = .ok out' ∧
      Stamp.stamped out'.toList = Stamp.stamped out.toList := by
  have hc : (c.sectionOf .header).contents c.places = .ok [c.header.write c.places] := by
    rw [contents_of_size_one (hwf _) hs.header hs.get?_header]
    rfl
  have hd : ((c.withHeader (c.header.sealed checksum signature)).sectionOf .header).contents
      (c.withHeader (c.header.sealed checksum signature)).places =
        .ok [(c.header.sealed checksum signature).write c.places] := by
    rw [sectionOf_withHeader, places_withHeader,
      contents_replaceFirst (hwf _) hs.header]
    rfl
  obtain ⟨tail, out', htail, hout', htail'⟩ := exists_tail_of_image_congr himage hc hd
    (by rw [Header.length_write, Header.length_write])
    fun k hk => by rw [sectionOf_withHeader_of_ne _ hk, places_withHeader]
  exact ⟨out', hout', by rw [htail', htail, Header.stamped_sealed]⟩

/-- Containers of the same contents are written alike. -/
theorem image_congr
    (h : ∀ k, (d.sectionOf k).contents d.places = (c.sectionOf k).contents c.places) :
    d.image = c.image := by
  simp only [Container.image, writeSections_congr fun k _ => h k]

/-- What is read of one's own output, under the same policy or one that keeps every order, is laid
out in one round and written as the same image. -/
theorem toImage_of_ofImage (hc : c.Reachable) (hclosed : c.Closed) (hencodable : c.Encodable)
    (hdistinct : c.HasDistinctClasses) (h : c.toImage = .ok (d, image))
    (hshort : image.size < 2 ^ 32) (hkeeps : o.preserveSignedRegisters = true)
    (hpolicy : o.policy = c.policy ∨ o.inPlace = true) :
    ∃ g e f n, (∀ r, ofImage r image o = .ok g) ∧ g.placeWithin 1 = .ok (e, n) ∧
      g.place = .ok (e, n) ∧ g.toImage = .ok (f, image) := by
  have hwf := hc.coherent.wellFormed
  obtain ⟨e, fileSize, out, hplace, -, hout, hstamp, -⟩ := toImage_eq_ok.1 h
  obtain ⟨hlays, -, dataEnd, hlaid⟩ := laidOut_of_placeWithin hwf hc.coherent.singletons hplace
  have he := hc.coherent.place hplace
  obtain ⟨checksum, signature, g, ρ, hstored, hg, hcopies⟩ := exists_of_image he hlaid
    (encodable_of_laysOut hlays hencodable) hout hstamp hshort o
  obtain ⟨hread, -, hgpolicy, -⟩ := isAccepted_of_ofImage (hg .stored)
  rw [hkeeps] at hcopies
  have hlaid' := hlaid.withHeader he.wellFormed he.singletons checksum signature
  have hs := hstored.coherent.singletons
  have hgs := hread.coherent.singletons
  have hsame : ¬o.inPlace = true → c.policy = g.policy := fun hplace =>
    (hgpolicy.trans (hpolicy.resolve_right hplace)).symm
  obtain ⟨hcopy, hsettled⟩ := isSettled_of_copies (closed_of_laysOut hwf hclosed hlays) hlaid'
    hstored hread.coherent hcopies
    (fun hr => isOrdered_of_placeWithin hwf hdistinct (by
      rwa [hsame]
      intro hin
      rw [hgpolicy] at hr
      simp [Options.policy, Policy.reordersClasses, hin] at hr) hplace)
    (fun hr k hk => isSorted_of_placeWithin hwf hclosed (by
      rwa [hsame]
      intro hin
      rw [hgpolicy] at hr
      simp [Options.policy, Policy.sorts, hin] at hr) hplace hk)
  have himage := image_congr (hcopy.contents_of_placeWithin hlaid' hs hgs)
  obtain ⟨out', hout', hstamped⟩ :=
    exists_image_withHeader he.wellFormed he.singletons hout checksum signature
  have hlength := signatureEnd_le_size he hlaid hout
  have hlength' := signatureEnd_le_size hstored.coherent hlaid' hout'
  have hstamp' : Stamp.stamp out' = .ok image := by
    rw [Stamp.stamp_eq hlength', hstamped, ← Stamp.stamp_eq hlength, hstamp]
  exact ⟨g, _, _, _, hg, hsettled.placeWithin 0, hsettled.placeWithin 15,
    toImage_eq_ok.2 ⟨_, _, out', hsettled.placeWithin 15, rfl, himage.trans hout', hstamp', rfl⟩⟩

theorem toImage_of_ofImage_oneMethod : ∃ c d image g e f n, oneMethod = .ok c ∧
    c.toImage = .ok (d, image) ∧ (∀ r, ofImage r image { inPlace := true } = .ok g) ∧
      g.placeWithin 1 = .ok (e, n) ∧ g.place = .ok (e, n) ∧ g.toImage = .ok (f, image) := by
  obtain ⟨c, d, image, hc, himage, hsize⟩ := exists_toImage_oneMethod
  obtain ⟨g, e, f, n, h⟩ := toImage_of_ofImage (o := { inPlace := true })
    (reachable_of_oneMethod hc) (closed_of_oneMethod hc) (encodable_of_oneMethod hc).1
    (hasDistinctClasses_of_oneMethod hc) himage (by omega) rfl (.inr rfl)
  exact ⟨c, d, image, g, e, f, n, hc, himage, h⟩

end Container

end DexContainer
