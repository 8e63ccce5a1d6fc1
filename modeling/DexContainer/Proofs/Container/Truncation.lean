import DexContainer.Proofs.Container.Rewriting
import DexContainer.Proofs.Container.Rows

/-! Images that are cut short. No length is checked against the file size of the header; an image
that lacks its end is refused because the map ends the file, the header says where the map stands,
and the rows that the map announces have to fit into what is left. Main statement:
`exists_error_of_extract`, no proper part from the start of a written image is accepted. -/

namespace DexContainer

namespace MapList

variable {x m : MapList} {s t : Source}

/-- A directory whose end is missing is refused. -/
theorem decode_ne_ok (hrest : s.rest <+: x.write) (hlt : s.rest.length < x.size)
    (hcount : x.entries.length < 2 ^ 32) : decode s ≠ .ok m t := by
  intro h
  rw [decode] at h
  obtain ⟨count, u, hword, h⟩ := Decoder.exists_of_bind h
  have hfour : 4 ≤ s.rest.length := by
    obtain ⟨bs, v, hbytes, -⟩ := Decoder.exists_of_bind (hword : (Decoder.bytes 4 >>= _) s = _)
    rw [Decoder.bytes] at hbytes
    split at hbytes
    · rw [Source.length_rest, Source.remaining]
      omega
    · cases hbytes
  obtain ⟨tail, htail⟩ : Word.full x.entries.length <+: s.rest :=
    List.prefix_of_prefix_length_le (List.prefix_append _ _) hrest (by rwa [Word.full_length])
  rw [Decoder.word_of_rest hcount htail.symm] at hword
  cases hword
  -- the rows that are announced do not fit into what is left
  have hfew : (s.advance 4).remaining / MapEntry.length < x.entries.length := by
    rw [Nat.div_lt_iff_lt_mul (by decide), ← Source.length_rest, Source.rest_advance,
      List.length_drop]
    rw [size] at hlt
    unfold MapEntry.length at hlt ⊢
    omega
  rw [Decoder.bind_of_ok (rfl : Decoder.remaining _ = .ok (s.advance 4).remaining _),
    if_pos hfew] at h
  obtain ⟨_, _, _, h⟩ := Decoder.exists_of_bind h
  exact absurd h Decoder.throw_bind_ne_ok

end MapList

namespace Header

variable {x : Header} {checksum : UInt32} {signature : Vector UInt8 20}

theorem mapOffset_sealed : (x.sealed checksum signature).mapOffset = x.mapOffset := rfl

/-- The two integrity fields take any value. -/
theorem IsEncodable.sealed (hx : x.IsEncodable) : (x.sealed checksum signature).IsEncodable :=
  ⟨⟨hx.magic, hx.linkSize, hx.linkOffset⟩, hx.fileSize, hx.mapOffset, hx.dataSize, hx.dataOffset⟩

end Header

namespace Container

variable {c d : Container} {k : Kind} {s t : Source} {image out : Image} {offset dataEnd : Nat}

/-- A singleton is what is read from its offset. -/
theorem exists_of_decodeSection (hk : k.isSingleton = true)
    (h : c.decodeSection k offset 1 s = .ok d t) : ∃ x,
      Content.decode k { s with position := offset } = .ok x t ∧
      (d.sectionOf k).get? ⟨0⟩ = some x := by
  have hindexed := Kind.isIndexed_of_isSingleton hk
  obtain ⟨_, s1, hseek, h⟩ := Decoder.exists_of_bind h
  obtain ⟨-, rfl⟩ := Section.seek_eq_ok.1 hseek
  obtain ⟨section', s2, hsection, h⟩ := Decoder.exists_of_bind h
  cases h
  rw [Section.decode, if_pos hindexed] at hsection
  obtain ⟨start, s3, hstart, hsection⟩ := Decoder.exists_of_bind hsection
  cases hstart
  obtain ⟨items, s4, hitems, hsection⟩ := Decoder.exists_of_bind hsection
  obtain ⟨x, s5, hx, hitems⟩ := Decoder.exists_of_bind hitems
  cases hitems
  cases hsection
  refine ⟨x, hx, ?_⟩
  rw [sectionOf_modifySection_self]
  rfl

/-- A header at the start of an image is read as it was written, whatever follows. -/
theorem header_of_decodeSection {x : Header} {places : Places} {tail : Bytes} (hx : x.IsEncodable)
    (himage : s.image.toList = x.write places ++ tail) (hs : s.references.Tracks places)
    (h : c.decodeSection .header 0 1 s = .ok d t) : d.header = x ∧ t.image = s.image := by
  obtain ⟨y, hy, hget⟩ := exists_of_decodeSection rfl h
  have hreads : Reads places s.keepsSigned (fun _ => True) 0 Header.decode (x.write places)
      fun _ => x := Header.reads hx
  obtain ⟨z, r, hz, -, -, hval⟩ := hreads { s with position := 0 } tail rfl (Nat.zero_le _)
    himage rfl hs fun _ _ => trivial
  obtain rfl := hval _ (r.gives_handlesRead places)
  rw [show Content.decode .header = Header.decode from rfl, hz] at hy
  cases hy
  exact ⟨header_eq hget, rfl⟩

/-- A stamped image starts with the header and ends with the map. -/
theorem exists_of_stamp (hc : c.Coherent) (h : c.LaidOut dataEnd) (himage : c.image = .ok out)
    (hstamp : Stamp.stamp out = .ok image) :
    image.size = c.header.fileSize ∧ image.toList.drop c.header.mapOffset = c.map.write ∧
      ∃ checksum signature tail,
        image.toList = (c.header.sealed checksum signature).write c.places ++ tail := by
  have hwf := hc.wellFormed
  have hs := hc.singletons
  have hsize := (of_image hwf hs h himage).1
  have hend := signatureEnd_le_size hc h himage
  rw [Stamp.stamp_eq hend] at hstamp
  rw [← Array.length_toList] at hend
  obtain rfl := Except.ok.inj hstamp
  refine ⟨?_, ?_, ?_⟩
  · rw [List.size_toArray, Stamp.length_stamped hend, Array.length_toList, hsize]
  · have hle : Stamp.signatureEnd ≤ c.header.mapOffset := by
      have htables := (h.header_stands hwf hs).le
      have hdata := Nat.le_trans h.data.le h.le_mapOffset
      exact Nat.le_trans (Nat.le_trans (by decide) htables) hdata
    obtain ⟨start, bs, hoffset, hbytes, tail, htail⟩ :=
      exists_bytes_of_image (y := first .mapList) hwf hs h himage (get_eq_ok.2 hs.get?_map)
    have hdvd : Kind.mapList.alignment ∣ c.header.mapOffset := by
      rw [h.mapOffset]
      exact Section.dvd_alignUp .mapList dataEnd
    rw [offsetOf?_first hwf hs rfl hdvd h.map] at hoffset
    cases hoffset
    cases hbytes
    have hmap := h.map_end hwf hs
    rw [← h.entries, ← MapList.length_write] at hmap
    have hlength : c.map.write.length + tail.length = out.size - c.header.mapOffset := by
      rw [← List.length_append, htail, List.length_drop, Array.length_toList]
    obtain rfl : tail = [] := List.length_eq_zero_iff.1 (by omega)
    rw [← Nat.add_sub_cancel' hle, ← List.drop_drop, Stamp.drop_stamped hend, List.drop_drop,
      Nat.add_sub_cancel' hle, ← htail, List.append_nil]
  · obtain ⟨tail, htail⟩ := exists_tail_of_image hc h himage
    obtain ⟨signature, hstamped⟩ := Header.stamped_write c.places c.header tail
    rw [← htail] at hstamped
    exact ⟨_, signature, tail, hstamped⟩

/-- Whatever a container holds, no proper part from the start of its written image is accepted under
any options. -/
theorem exists_error_of_extract (hc : c.Reachable) (h : c.toImage = .ok (d, image))
    (hshort : image.size < 2 ^ 32) (r : RowOrder) (o : Options) (n : Nat) (hn : n < image.size) :
    ∃ e, ofImage r (image.extract 0 n) o = .error e := by
  cases hread : ofImage r (image.extract 0 n) o with
  | error e => exact ⟨e, rfl⟩
  | ok g =>
    exfalso
    obtain ⟨e, fileSize, out, hplace, -, himage, hstamp, rfl⟩ := toImage_eq_ok.1 h
    have he := hc.coherent.place hplace
    obtain ⟨-, -, dataEnd, hlaid⟩ :=
      laidOut_of_placeWithin hc.coherent.wellFormed hc.coherent.singletons hplace
    obtain ⟨hsize, hmap, checksum, signature, tail, hheader⟩ :=
      exists_of_stamp he hlaid himage hstamp
    rw [hsize] at hshort
    have htake : (image.extract 0 n).toList = image.toList.take n := by
      rw [Array.toList_extract, List.extract_eq_take_drop, List.drop_zero, Nat.sub_zero]
    have hlength : (image.extract 0 n).size = n := by
      rw [Array.size_extract]
      omega
    obtain ⟨hfits, -, u, hdecode⟩ := ofImage_eq_ok.1 hread
    obtain ⟨c1, s1, c2, s2, h1, -, hbounds, h2, -⟩ := decode_eq_ok.1 hdecode
    -- the header is there in full and names the offset of the map
    have hencodable := hlaid.header_isEncodable he hshort
    have hcut : (image.extract 0 n).toList =
        (e.header.sealed checksum signature).write e.places ++ tail.take (n - Header.length) := by
      rw [htake, hheader, List.take_append, Header.length_write, List.take_of_length_le]
      rw [Header.length_write]
      omega
    obtain ⟨hread1, himage1⟩ :=
      header_of_decodeSection hencodable.sealed hcut References.tracks_empty h1
    have hoffset : c1.header.mapOffset = e.header.mapOffset := by
      rw [hread1, Header.mapOffset_sealed]
    have hlt : e.header.mapOffset < n := by
      rw [hoffset, checkBounds, if_neg Nat.one_ne_zero] at hbounds
      split at hbounds
      · rename_i hin
        exact hlength ▸ hin.1
      · cases hbounds
    -- the map is not
    obtain ⟨x, hx, -⟩ := exists_of_decodeSection rfl h2
    have hend := hlaid.map_end he.wellFormed he.singletons
    rw [← hlaid.entries] at hend
    have hrest : ({ s1 with position := c1.header.mapOffset } : Source).rest =
        e.map.write.take (n - e.header.mapOffset) := by
      rw [Source.rest, himage1, hoffset, htake, List.drop_take, hmap]
    refine MapList.decode_ne_ok (x := e.map) ?_ ?_ ?_ hx
    · rw [hrest]
      exact List.take_prefix _ _
    · rw [hrest, List.length_take, MapList.length_write]
      omega
    · rw [MapList.size] at hend
      unfold MapEntry.length at hend
      omega

/-- The image of a container with a method is refused without its last byte. -/
theorem exists_error_of_extract_oneMethod : ∃ (c d : Container) (image : Image) (e : Fault),
    c.Reachable ∧ c.toImage = .ok (d, image) ∧ image.size = 284 ∧
      ofImage .stored (image.extract 0 283) {} = .error e := by
  obtain ⟨c, d, image, hc, himage, hsize⟩ := exists_toImage_oneMethod
  have hreachable := reachable_of_oneMethod hc
  obtain ⟨e, he⟩ :=
    exists_error_of_extract hreachable himage (by omega) .stored {} 283 (by omega)
  exact ⟨c, d, image, e, hreachable, himage, hsize, he⟩

end Container

end DexContainer
