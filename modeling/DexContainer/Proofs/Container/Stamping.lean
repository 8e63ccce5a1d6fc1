import DexContainer.Proofs.Container.Reading
import DexContainer.Proofs.Stamp

/-! A container and its stamped image. The stamped image is that of the same container with the two
integrity fields in its header. Main statement: `isStored_of_stamp`. -/

namespace DexContainer

namespace Header

variable {places : Places} {x : Header}

/-- The header with other integrity fields. -/
def sealed (x : Header) (checksum : UInt32) (signature : Vector UInt8 20) : Header :=
  { x with checksum, signature }

theorem stamped_write (places : Places) (x : Header) (tail : Bytes) :
    ∃ signature : Vector UInt8 20, Stamp.stamped (x.write places ++ tail) =
      (x.sealed (Stamp.checksumOf (x.write places ++ tail)) signature).write places ++ tail := by
  obtain ⟨signature, hsignature⟩ : ∃ v : Vector UInt8 20,
      v.toList = Stamp.signatureOf (x.write places ++ tail) :=
    ⟨⟨(Stamp.signatureOf (x.write places ++ tail)).toArray, Sha1.digest_length _⟩, rfl⟩
  refine ⟨signature, ?_⟩
  have hmagic : x.magic.toList.length = Stamp.checksumStart := x.magic.length_toList
  have hfields : (x.magic.toList ++ Word.full x.checksum.toNat ++ x.signature.toList).length =
      Stamp.signatureEnd := by
    simp only [List.length_append, Vector.length_toList, Word.full_length]
    rfl
  have htake : (x.write places ++ tail).take Stamp.checksumStart = x.magic.toList := by
    rw [write_eq]
    simp only [List.append_assoc]
    exact List.take_left' hmagic
  have hdrop : (x.write places ++ tail).drop Stamp.signatureEnd = x.rest places ++ tail := by
    rw [write_eq, List.append_assoc]
    exact List.drop_left' hfields
  rw [Stamp.stamped, ← hsignature, htake, hdrop, write_eq places (x.sealed _ signature)]
  simp only [sealed, rest, List.append_assoc]

/-- The integrity fields do not count for the stamp. -/
theorem stamped_sealed (places : Places) (x : Header) (checksum : UInt32)
    (signature : Vector UInt8 20) (tail : Bytes) :
    Stamp.stamped ((x.sealed checksum signature).write places ++ tail) =
      Stamp.stamped (x.write places ++ tail) := by
  have htake (y : Header) (tail : Bytes) :
      (y.write places ++ tail).take Stamp.checksumStart = y.magic.toList := by
    rw [write_eq]
    simp only [List.append_assoc]
    exact List.take_left' y.magic.length_toList
  have hdrop (y : Header) (tail : Bytes) :
      (y.write places ++ tail).drop Stamp.signatureEnd = y.rest places ++ tail := by
    rw [write_eq, List.append_assoc]
    refine List.drop_left' ?_
    simp only [List.length_append, Vector.length_toList, Word.full_length]
    rfl
  refine Stamp.stamped_congr ?_ ?_
  · rw [htake, htake]
    rfl
  · rw [hdrop, hdrop]
    rfl

end Header

namespace Container

variable {c : Container} {image out : Image} {dataEnd : Nat} {k : Kind}

/-- The container with another header. -/
def withHeader (c : Container) (x : Header) : Container :=
  c.modifySection .header (·.replaceFirst x)

theorem sectionOf_withHeader_of_ne (x : Header) (hk : k ≠ .header) :
    (c.withHeader x).sectionOf k = c.sectionOf k :=
  sectionOf_modifySection_of_ne c _ hk

theorem sectionOf_withHeader (x : Header) :
    (c.withHeader x).sectionOf .header = (c.sectionOf .header).replaceFirst x :=
  sectionOf_modifySection_self c .header _

theorem header_withHeader (hs : c.HasSingletons) (x : Header) : (c.withHeader x).header = x := by
  refine header_eq ?_
  rw [sectionOf_withHeader, Section.get?_replaceFirst x hs.header]

theorem map_withHeader (x : Header) : (c.withHeader x).map = c.map := by
  rw [map, map, sectionOf_withHeader_of_ne x (by decide)]

/-- What a singleton holds is not where anything is looked up. -/
theorem places_replaceFirst (c : Container) (x : Content k) :
    (c.modifySection k (·.replaceFirst x)).places = c.places := by
  have hposition : ∀ (j : Kind) (h : Handle j),
      (c.modifySection k (·.replaceFirst x)).position? h = c.position? h :=
    forall_modifySection (P := fun j s => ∀ h : Handle j, s.position? h = c.position? h)
      (fun _ => rfl) fun _ _ _ => rfl
  have htable : ∀ j : Kind, (((c.modifySection k (·.replaceFirst x)).sectionOf j).size,
      ((c.modifySection k (·.replaceFirst x)).sectionOf j).offset?.getD 0) =
        ((c.sectionOf j).size, (c.sectionOf j).offset?.getD 0) :=
    forall_modifySection (P := fun j s => (s.size, s.offset?.getD 0) =
      ((c.sectionOf j).size, (c.sectionOf j).offset?.getD 0))
      (by rw [Section.size, size_replaceFirst]; rfl) fun _ _ => rfl
  simp only [places, hposition, htable]

theorem places_withHeader (x : Header) : (c.withHeader x).places = c.places :=
  places_replaceFirst (k := .header) c x

/-- A container stays laid out under a header that says the same of the layout. -/
theorem LaidOut.withHeader (hc : c.SectionsWellFormed) (hs : c.HasSingletons)
    (h : c.LaidOut dataEnd) (checksum : UInt32) (signature : Vector UInt8 20) :
    (c.withHeader (c.header.sealed checksum signature)).LaidOut dataEnd := by
  have hother : ∀ k, k ≠ .header →
      (c.withHeader (c.header.sealed checksum signature)).sectionOf k = c.sectionOf k :=
    fun k hk => sectionOf_withHeader_of_ne _ hk
  have hmeasures : c.places.MeasuresAlike
      (c.withHeader (c.header.sealed checksum signature)).places := by
    rw [places_withHeader]
    exact fun _ _ _ => rfl
  have hentries : (c.withHeader (c.header.sealed checksum signature)).mapEntries
      c.header.mapOffset = c.mapEntries c.header.mapOffset := by
    exact mapEntries_of_header (sectionOf_withHeader _) (fun k hk => hother k (Kind.ne_header hk)) _
  have hheader := header_withHeader hs (c.header.sealed checksum signature)
  constructor
  · rw [hheader]
    exact stacked_of_header hc hs (sectionOf_withHeader _)
      (fun k hk => hother k (Kind.ne_header hk)) h.tables
  · rw [hheader]
    refine stacked_congr h.data (fun k hk => hother k ?_) (.inr hmeasures)
    rintro rfl
    exact absurd hk (by decide)
  · rw [hheader]
    exact h.mapOffset
  · rw [hheader]
    refine stacked_congr h.map (fun k hk => hother k ?_) (.inr hmeasures)
    rintro rfl
    exact absurd hk (by decide)
  · rw [map_withHeader, hheader, h.entries]
    exact congrArg MapList.mk hentries.symm
  · rw [hheader]
    exact h.dataSize

theorem Coherent.withHeader (hc : c.Coherent) (h : c.LaidOut dataEnd) (checksum : UInt32)
    (signature : Vector UInt8 20) :
    (c.withHeader (c.header.sealed checksum signature)).Coherent := by
  refine ⟨isCoherent_modifySection hc.sections ?_, fun _ =>
    ⟨dataEnd, h.withHeader hc.wellFormed hc.singletons checksum signature⟩⟩
  have hs := hc.singletons
  have hwf := (hc.wellFormed .header).replaceFirst (c.header.sealed checksum signature)
  have hsize := (size_replaceFirst (s := c.sectionOf .header)
    (c.header.sealed checksum signature)).trans hs.header
  refine ⟨hwf, fun _ => hsize, fun y z hz => ?_, fun hk => (by cases hk), fun hk => (by cases hk)⟩
  obtain rfl := id_of_size_one hsize hz
  rw [Section.get?_replaceFirst _ hs.header] at hz
  cases hz
  exact ⟨hc.header.magic, hc.header.linkSize, hc.header.linkOffset⟩

/-- A section of one item holds the bytes of the item. -/
theorem contents_of_size_one {s : Section k} {x : Content k} {places : Places} (hs : s.WellFormed)
    (h : s.items.size = 1) (hx : s.get? ⟨0⟩ = some x) :
    s.contents places = do return [← Content.write places k x] := by
  rw [Section.contents, Section.order_of_size_one hs h, List.mapM_cons, List.mapM_nil,
    Section.bytesOf, Section.get_eq_ok.2 hx]
  rfl

/-- A section whose one item was replaced holds the bytes of the new item. -/
theorem contents_replaceFirst {s : Section k} {places : Places} (hs : s.WellFormed)
    (h : s.items.size = 1) (x : Content k) :
    (s.replaceFirst x).contents places = do return [← Content.write places k x] :=
  contents_of_size_one (hs.replaceFirst x) ((size_replaceFirst x).trans h)
    (Section.get?_replaceFirst x h)

/-- A container with its own header again has the same contents. -/
theorem contents_withHeader_self (hwf : c.SectionsWellFormed) (hs : c.HasSingletons) (k : Kind)
    (places : Places) : ((c.withHeader c.header).sectionOf k).contents places =
      (c.sectionOf k).contents places := by
  by_cases hk : k = .header
  · subst hk
    rw [sectionOf_withHeader, contents_replaceFirst (hwf _) hs.header,
      contents_of_size_one (hwf _) hs.header hs.get?_header]
  · rw [sectionOf_withHeader_of_ne _ hk]

/-- The header that was written is the start of the image. -/
theorem exists_tail_of_image (hc : c.Coherent) (h : c.LaidOut dataEnd)
    (himage : c.image = .ok image) : ∃ tail, image.toList = c.header.write c.places ++ tail := by
  have hwf := hc.wellFormed
  have hs := hc.singletons
  obtain ⟨first, bss, hstored, hfirst⟩ := (of_image hwf hs h himage).2 .header
  obtain rfl : first = 0 := hfirst
  have hcontents := hstored.contents
  rw [contents_of_size_one (hwf _) hs.header hs.get?_header] at hcontents
  cases hcontents
  obtain ⟨tail, htail⟩ := hstored.span
  refine ⟨tail, ?_⟩
  rw [List.drop_zero] at htail
  rw [← htail]
  simp [Section.spanOf, padding, alignUp_four, Kind.alignment]

theorem signatureEnd_le_size (hc : c.Coherent) (h : c.LaidOut dataEnd)
    (himage : c.image = .ok image) : Stamp.signatureEnd ≤ image.size := by
  have htables := (h.header_stands hc.wellFormed hc.singletons).le
  have hmap := h.mapOffset_lt hc.wellFormed hc.singletons
  have hdata := Nat.le_trans h.data.le h.le_mapOffset
  have hheader : Stamp.signatureEnd ≤ Header.length := by decide
  rw [(of_image hc.wellFormed hc.singletons h himage).1]
  omega

/-- A section behind the integrity fields stays where it is stored. -/
theorem isStored_stamped {s : Section k} {places : Places} {first : Nat} {bss : List Bytes}
    (h : s.IsStored places out first bss) (hend : Stamp.signatureEnd ≤ out.toList.length)
    (hfirst : Header.length ≤ first) :
    s.IsStored places (Stamp.stamped out.toList).toArray first bss := by
  refine ⟨h.contents, h.stands, ?_⟩
  have hle : Stamp.signatureEnd ≤ first := Nat.le_trans (by decide) hfirst
  have hspan := h.span
  rw [← Nat.add_sub_cancel' hle, ← List.drop_drop] at hspan ⊢
  rwa [Stamp.drop_stamped hend]

/-- Another header is stored by an image that starts with it. -/
theorem isStored_withHeader {x : Header} {bss : List Bytes} {tail : Bytes}
    (hwf : c.SectionsWellFormed) (hs : c.HasSingletons)
    (h : (c.sectionOf .header).IsStored c.places out 0 bss)
    (himage : image.toList = x.write c.places ++ tail) :
    ((c.withHeader x).sectionOf .header).IsStored c.places image 0 [x.write c.places] := by
  have hcontents := h.contents
  rw [contents_of_size_one (hwf _) hs.header hs.get?_header] at hcontents
  cases hcontents
  rw [sectionOf_withHeader]
  refine ⟨?_, ?_, tail, ?_⟩
  · rw [contents_replaceFirst (hwf _) hs.header]
    rfl
  · -- every header is of one length
    have hstands := h.stands.replaceFirst x
    simp only [List.map_cons, List.map_nil, Header.length_write] at hstands ⊢
    exact hstands
  · rw [himage, List.drop_zero]
    simp [Section.spanOf, padding, alignUp_four, Kind.alignment]

/-- A stamped image holds the container that was written, with its integrity fields in the
header. -/
theorem isStored_of_stamp (hc : c.Coherent) (h : c.LaidOut dataEnd)
    (hencodable : ∀ (k : Kind) (h : Handle k) (x : Content k), k.isSingleton = false →
      (c.sectionOf k).get? h = some x → Content.IsEncodable k x)
    (himage : c.image = .ok out) (hstamp : Stamp.stamp out = .ok image)
    (hshort : image.size < 2 ^ 32) :
    Stamp.verify image = .ok () ∧ ∃ checksum signature,
      (c.withHeader (c.header.sealed checksum signature)).IsStored image := by
  have hwf := hc.wellFormed
  have hs := hc.singletons
  obtain ⟨hsize, hstored⟩ := of_image hwf hs h himage
  have hend := signatureEnd_le_size hc h himage
  rw [Stamp.stamp_eq hend] at hstamp
  rw [← Array.length_toList] at hend
  obtain rfl := Except.ok.inj hstamp
  obtain ⟨tail, htail⟩ := exists_tail_of_image hc h himage
  obtain ⟨signature, hstamped⟩ := Header.stamped_write c.places c.header tail
  rw [← htail] at hstamped
  generalize Stamp.checksumOf out.toList = checksum at hstamped
  refine ⟨Stamp.verify_stamped hend, checksum, signature, hc.withHeader h checksum signature,
    ⟨dataEnd, h.withHeader hwf hs checksum signature⟩, fun k y x hk hx => ?_, fun k => ?_, ?_,
    hshort⟩
  · rw [sectionOf_withHeader_of_ne _ (Kind.ne_header hk)] at hx
    exact hencodable k y x hk hx
  · rw [places_withHeader]
    obtain ⟨first, bss, hsection, hfirst⟩ := hstored k
    by_cases hk : k = .header
    · subst hk
      obtain rfl : first = 0 := hfirst
      exact ⟨0, _, isStored_withHeader hwf hs hsection hstamped⟩
    · rw [if_neg hk] at hfirst
      rw [sectionOf_withHeader_of_ne _ hk]
      exact ⟨first, bss, isStored_stamped hsection hend hfirst⟩
  · rw [header_withHeader hs, List.size_toArray, Stamp.length_stamped hend, Array.length_toList,
      hsize]
    rfl

end Container

end DexContainer
