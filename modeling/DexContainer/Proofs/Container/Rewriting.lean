import DexContainer.Proofs.Container.Interning
import DexContainer.Proofs.Container.Settled
import DexContainer.Proofs.Container.Settling

/-! Writing a container and reading it back. What is read has the same content: the same items in
the same file order, with every handle renamed to the handle of the item that it led to. Main
statements: `sameContent_of_toImage`, a container whose items can be encoded is read back; and
`sameContent_of_ofImage`, a container that was read can be written again under every policy, unless
code keeps moving. -/

namespace DexContainer

variable {k : Kind}

namespace Section

variable {s : Section k}

theorem mem_handles (hs : s.WellFormed) {h : Handle k} : h ∈ s.handles ↔ h.id < s.items.size := by
  rw [← hs.mem_order, handles, List.mem_map]
  constructor
  · rintro ⟨id, hid, rfl⟩
    exact hid
  · intro hid
    exact ⟨h.id, hid, rfl⟩

theorem nodup_handles (hs : s.WellFormed) : s.handles.Nodup :=
  hs.nodup.map fun _ _ h => congrArg Handle.id h

/-- Marks stand in debug information only. -/
theorem Copies.of_keeps {ρ : Renaming} {keeps keeps' : Bool} {t : Section k} (hs : s.WellFormed)
    (h : s.Copies ρ keeps t) (hk : k = .debugInfo → s.items.size = 0) : s.Copies ρ keeps' t := by
  refine ⟨h.order, fun id hid => ?_, h.positions, h.size, h.offset?, h.byteSize⟩
  rw [h.items id hid]
  have hlt := hs.mem_order.1 hid
  cases k <;> first | rfl | (rw [hk rfl] at hlt; cases hlt)

theorem Copies.handles {ρ : Renaming} {keeps : Bool} {t : Section k} (h : s.Copies ρ keeps t) :
    t.handles = s.handles.map (ρ k) := by
  rw [Section.handles, h.order, Section.handles, List.map_map, List.map_map]
  rfl

end Section

namespace Container

variable {c d g : Container} {o : Options} {image b : Image} {ρ : Renaming} {keeps : Bool}

/-- Every item can be encoded. -/
def Encodable (c : Container) : Prop :=
  ∀ (k : Kind) (h : Handle k) (x : Content k), k.isSingleton = false →
    (c.sectionOf k).get? h = some x → Content.IsEncodable k x

/-- Every item is as a reader sees it that keeps signed registers or does not. -/
def Exact (keeps : Bool) (c : Container) : Prop :=
  ∀ (k : Kind) (h : Handle k) (x : Content k), k.isSingleton = false →
    (c.sectionOf k).get? h = some x → Content.asRead keeps k x = x

/-- One container holds the content of another one: its items in file order are those of the other
one in a given order, with their handles renamed, and the header says the same besides the layout
and the integrity. -/
structure SameContent (ρ : Renaming) (order : (k : Kind) → List (Handle k)) (c g : Container) :
    Prop where
  nodup : ∀ k, (order k).Nodup
  mem_order : ∀ (k : Kind) (h : Handle k), h ∈ order k ↔ ∃ x, c.get h = .ok x
  nodup_handles : ∀ k, (g.sectionOf k).handles.Nodup
  mem_handles : ∀ (k : Kind) (h : Handle k), h ∈ (g.sectionOf k).handles ↔ ∃ x, g.get h = .ok x
  handles : ∀ k, (g.sectionOf k).handles = (order k).map (ρ k)
  items : ∀ (k : Kind) (h : Handle k) (x : Content k), k.isSingleton = false →
    c.get h = .ok x → g.get (ρ k h) = .ok (Content.rename ρ k x)
  magic : g.header.magic = c.header.magic
  linkSize : g.header.linkSize = c.header.linkSize
  linkOffset : g.header.linkOffset = c.header.linkOffset

/-! ### Containers with the same items -/

theorem KeepsItems.encodable (h : c.KeepsItems d) (hc : c.Encodable) : d.Encodable := by
  intro k x y hk hy
  rw [h.get?] at hy
  exact hc k x y hk hy

theorem KeepsItems.header (h : c.KeepsItems d) : d.header = c.header := header_congr (h .header)

theorem SameContent.of_keepsItems {order : (k : Kind) → List (Handle k)} (h : c.KeepsItems d)
    (hd : d.SameContent ρ order g) : c.SameContent ρ order g := by
  have hget (k : Kind) (x : Handle k) : d.get x = c.get x := by
    rw [get, get, Section.get, Section.get, h.get?]
  have hheader := h.header
  refine ⟨hd.nodup, fun k x => ?_, hd.nodup_handles, hd.mem_handles, hd.handles,
    fun k x y hk hx => ?_, ?_, ?_, ?_⟩
  · rw [hd.mem_order, hget]
  · exact hd.items k x y hk ((hget k x).trans hx)
  · rw [hd.magic, hheader]
  · rw [hd.linkSize, hheader]
  · rw [hd.linkOffset, hheader]

theorem Coherent.setPolicies (hc : c.Coherent) (ps : List Policy) :
    (ps.foldl Container.setPolicy c).Coherent := by
  induction ps generalizing c with
  | nil => exact hc
  | cons p ps ih => exact ih (hc.setPolicy p)

/-! ### Reading back -/

/-- A stamped image is read as a copy of the container that was written, with its integrity fields
in the header. -/
theorem exists_of_image {dataEnd : Nat} (hc : c.Coherent) (hlaid : c.LaidOut dataEnd)
    (he : c.Encodable) (himage : c.image = .ok b) (hstamp : Stamp.stamp b = .ok image)
    (hshort : image.size < 2 ^ 32) (o : Options) :
    ∃ checksum signature g ρ, (c.withHeader (c.header.sealed checksum signature)).IsStored image ∧
      (∀ r, ofImage r image o = .ok g) ∧
      ∀ k, ((c.withHeader (c.header.sealed checksum signature)).sectionOf k).Copies ρ
        o.preserveSignedRegisters (g.sectionOf k) := by
  obtain ⟨hverify, checksum, signature, hstored⟩ :=
    isStored_of_stamp hc hlaid he himage hstamp hshort
  obtain ⟨g, ρ, hg, hcopies⟩ := exists_of_stored hstored o fun _ => hverify
  exact ⟨checksum, signature, g, ρ, hstored, hg, hcopies⟩

theorem encodable_of_laysOut (h : c.LaysOut d) (hc : c.Encodable) : d.Encodable := by
  intro k y x hk hx
  rw [h.items.get? hk] at hx
  exact hc k y x hk hx

/-- A written image is read as a copy of the container as it was laid out, with its integrity fields
in the header. -/
theorem exists_of_toImage (hc : c.Coherent) (he : c.Encodable) (h : c.toImage = .ok (d, image))
    (hshort : image.size < 2 ^ 32) (o : Options) :
    ∃ e checksum signature g ρ, c.LaysOut e ∧ { e with stage := .finalized } = d ∧
      (∀ r, ofImage r image o = .ok g) ∧ ∀ k, ((e.withHeader
        (e.header.sealed checksum signature)).sectionOf k).Copies ρ o.preserveSignedRegisters
          (g.sectionOf k) := by
  obtain ⟨e, fileSize, out, hplace, hstage, himage, hstamp, rfl⟩ := toImage_eq_ok.1 h
  obtain ⟨hlays, -, dataEnd, hlaid⟩ := laidOut_of_placeWithin hc.wellFormed hc.singletons hplace
  obtain ⟨checksum, signature, g, ρ, -, hg, hcopies⟩ := exists_of_image (hc.place hplace) hlaid
    (encodable_of_laysOut hlays he) himage hstamp hshort o
  exact ⟨e, checksum, signature, g, ρ, hlays, rfl, hg, hcopies⟩

/-- The header is read as it was written. -/
theorem header_of_copies (hc : c.SectionsWellFormed) (hs : c.HasSingletons) {x : Header}
    (hcopies : ((c.withHeader x).sectionOf .header).Copies ρ keeps (g.sectionOf .header)) :
    g.header = x := by
  rw [sectionOf_withHeader] at hcopies
  exact header_eq (hcopies.singleton ((hc .header).replaceFirst _)
    ((size_replaceFirst x).trans hs.header) (Section.get?_replaceFirst x hs.header))

/-- What is read has the content of what was written. -/
theorem sameContent_of_copies (hc : c.Coherent) (hx : c.Exact keeps) (hlays : c.LaysOut d)
    (hg : g.Coherent) {checksum : UInt32} {signature : Vector UInt8 20}
    (hcopies : ∀ k, ((d.withHeader (d.header.sealed checksum signature)).sectionOf k).Copies ρ keeps
      (g.sectionOf k)) :
    c.SameContent ρ (fun k => (d.sectionOf k).handles) g := by
  have hheader : g.header = d.header.sealed checksum signature :=
    header_of_copies hlays.wellFormed hlays.singletons (hcopies .header)
  refine ⟨fun k => Section.nodup_handles (hlays.wellFormed k), fun k h => ?_,
    fun k => Section.nodup_handles (hg.wellFormed k), fun k h => ?_, fun k => ?_,
    fun k h x hk hget => ?_, ?_, ?_, ?_⟩
  · simp only [Section.mem_handles (hlays.wellFormed k), ← resolves_iff, get_eq_ok]
    exact resolves_of_laysOut hc.wellFormed hlays
  · simp only [Section.mem_handles (hg.wellFormed k), ← resolves_iff, Resolves, get_eq_ok]
  · rw [(hcopies k).handles]
    by_cases hk : k = .header
    · subst hk
      rw [sectionOf_withHeader]
      rfl
    · rw [sectionOf_withHeader_of_ne _ hk]
  · rw [get_eq_ok] at hget ⊢
    have hcopy := hcopies k
    rw [sectionOf_withHeader_of_ne _ (Kind.ne_header hk)] at hcopy
    have hget' := (hlays.items.get? hk h).trans hget
    have hmem := (hlays.wellFormed k).mem_order.2 (resolves_iff.1 ⟨x, hget'⟩)
    rw [hcopy.items h.id hmem, hget', Option.map_some, Content.asRead_rename, hx k h x hk hget]
  · rw [hheader]
    exact hlays.magic
  · rw [hheader]
    exact hlays.linkSize
  · rw [hheader]
    exact hlays.linkOffset

/-! ### What writing needs -/

/-- A container that can be laid out can be written when every handle leads to an item. -/
theorem exists_toImage {fileSize : Nat} (hc : c.Coherent) (hclosed : c.Closed)
    (hplace : c.place = .ok (d, fileSize)) :
    ∃ e image, c.toImage = .ok (e, image) ∧ image.size = fileSize := by
  obtain ⟨hlays, hsize, dataEnd, hlaid⟩ :=
    laidOut_of_placeWithin hc.wellFormed hc.singletons hplace
  have hd := hc.place hplace
  obtain ⟨out, hout⟩ := exists_image hd (closed_of_laysOut hc.wellFormed hclosed hlays) hlaid
  have hstage : d.stage.isPlaced = true := by
    rw [hlays.stage]
    rfl
  have hend := signatureEnd_le_size hd hlaid hout
  refine ⟨_, _, toImage_eq_ok.2 ⟨d, fileSize, out, hplace, hstage, hout, Stamp.stamp_eq hend, rfl⟩,
    ?_⟩
  rw [List.size_toArray, Stamp.length_stamped hend, Array.length_toList,
    (of_image hd.wellFormed hd.singletons hlaid hout).1, hsize]

/-- A layout that does not end is all that can go wrong. -/
theorem eq_unsettled_of_toImage {e : Failure} (hc : c.Coherent) (hclosed : c.Closed)
    (h : c.toImage = .error e) : e = .violation (.unsettled maxRounds) := by
  rcases exists_or_unsettled hc.wellFormed hclosed maxRounds with ⟨d, fileSize, hplace⟩ | hplace
  · obtain ⟨f, b, hf, -⟩ := exists_toImage hc hclosed hplace
    rw [hf] at h
    cases h
  · rw [toImage, place, hplace] at h
    cases h
    rfl

theorem exists_toImage_oneMethod : ∃ c d image, oneMethod = .ok c ∧ c.toImage = .ok (d, image) ∧
    image.size = 284 := by
  obtain ⟨c, _, hc, hplace, -⟩ := exists_place_oneMethod
  obtain ⟨d, image, h⟩ := exists_toImage (reachable_of_oneMethod hc).coherent
    (closed_of_oneMethod hc) hplace
  exact ⟨c, d, image, hc, h⟩

/-! ### Round trips -/

theorem encodable_of_oneMethod (h : oneMethod = .ok c) : c.Encodable ∧ c.Exact true := by
  obtain ⟨hstringData, hstringId, htypeId, hprotoId, hmethodId, hcode, hclassData, hsizes⟩ :=
    items_of_oneMethod h
  suffices hall : ∀ (k : Kind) (x : Content k), k.isSingleton = false →
      x ∈ (c.sectionOf k).items → Content.IsEncodable k x ∧ Content.asRead true k x = x from
    ⟨fun k y x hk hx => (hall k x hk (Array.mem_of_getElem? hx)).1,
      fun k y x hk hx => (hall k x hk (Array.mem_of_getElem? hx)).2⟩
  intro k x hk hx
  have hpos := Array.size_pos_of_mem hx
  simp only [Kind.readOrder, List.map_cons, List.map_nil, List.cons.injEq] at hsizes
  cases k with
  | header => cases hk
  | mapList => cases hk
  | stringData =>
    obtain rfl := Array.mem_singleton.1 (hstringData ▸ hx)
    exact ⟨⟨rfl, by decide⟩, rfl⟩
  | stringId => exact ⟨trivial, rfl⟩
  | typeId => exact ⟨trivial, rfl⟩
  | protoId => exact ⟨trivial, rfl⟩
  | methodId =>
    obtain rfl := Array.mem_singleton.1 (hmethodId ▸ hx)
    exact ⟨⟨by decide, by decide⟩, rfl⟩
  | code =>
    obtain rfl := Array.mem_singleton.1 (hcode ▸ hx)
    exact ⟨⟨by decide, by simp⟩, rfl⟩
  | classData => exact ⟨trivial, rfl⟩
  | _ => omega

theorem hasDistinctClasses_of_oneMethod (h : oneMethod = .ok c) : c.HasDistinctClasses := by
  obtain ⟨-, -, -, -, -, -, -, hsizes⟩ := items_of_oneMethod h
  simp only [Kind.readOrder, List.map_cons, List.map_nil, List.cons.injEq,
    Array.size_eq_zero_iff] at hsizes
  intro x x' y y' hx
  rw [Section.get?, hsizes.2.2.2.2.2.2.1] at hx
  cases hx

/-- A container whose items can be encoded, and are as a reader sees them, is read back with the
same content. -/
theorem sameContent_of_toImage (hc : c.Reachable) (hencodable : c.Encodable)
    (hexact : c.Exact true) (h : c.toImage = .ok (d, image)) (hshort : image.size < 2 ^ 32)
    (ho : o.preserveSignedRegisters = true) :
    ∃ g ρ, (∀ r, ofImage r image o = .ok g) ∧
      c.SameContent ρ (fun k => (d.sectionOf k).handles) g := by
  obtain ⟨e, checksum, signature, g, ρ, hlays, rfl, hg, hcopies⟩ :=
    exists_of_toImage hc.coherent hencodable h hshort o
  rw [ho] at hcopies
  exact ⟨g, ρ, hg, sameContent_of_copies (d := e) hc.coherent hexact hlays
    (isAccepted_of_ofImage (hg .stored)).1.coherent hcopies⟩

theorem sameContent_of_toImage_oneMethod : ∃ c d image g ρ, oneMethod = .ok c ∧
    c.toImage = .ok (d, image) ∧ (∀ r, ofImage r image {} = .ok g) ∧
      c.SameContent ρ (fun k => (d.sectionOf k).handles) g := by
  obtain ⟨c, d, image, hc, himage, hsize⟩ := exists_toImage_oneMethod
  obtain ⟨hencodable, hexact⟩ := encodable_of_oneMethod hc
  obtain ⟨g, ρ, h⟩ := sameContent_of_toImage (o := {}) (reachable_of_oneMethod hc) hencodable
    hexact himage (by omega) rfl
  exact ⟨c, d, image, g, ρ, hc, himage, h⟩

/-- What is read of a file that was put into all orders can be written under every policy. -/
theorem exists_toImage_of_ordered (hc : c.Reachable) (hclosed : c.Closed)
    (hencodable : c.Encodable) (hdistinct : c.HasDistinctClasses)
    (hreorders : c.policy.reordersClasses = true) (hsorts : c.policy.sorts = true)
    (hdebug : (c.sectionOf .debugInfo).items.size = 0) (h : c.toImage = .ok (d, image))
    (hshort : image.size < 2 ^ 32) (o : Options) (p : Policy) :
    ∃ g f b, (∀ r, ofImage r image o = .ok g) ∧ (g.setPolicy p).toImage = .ok (f, b) ∧
      b.size = image.size := by
  have hwf := hc.coherent.wellFormed
  obtain ⟨e, fileSize, out, hplace, -, hout, hstamp, -⟩ := toImage_eq_ok.1 h
  obtain ⟨hlays, -, dataEnd, hlaid⟩ := laidOut_of_placeWithin hwf hc.coherent.singletons hplace
  have he := hc.coherent.place hplace
  obtain ⟨checksum, signature, g, ρ, hstored, hg, hcopies⟩ := exists_of_image he hlaid
    (encodable_of_laysOut hlays hencodable) hout hstamp hshort o
  obtain ⟨hread, -, -, hstage⟩ := isAccepted_of_ofImage (hg .stored)
  have hcoherent := hread.coherent.setPolicy p
  obtain ⟨-, hsettled⟩ := isSettled_of_copies (closed_of_laysOut hwf hclosed hlays)
    (hlaid.withHeader he.wellFormed he.singletons checksum signature) hstored hcoherent
    (fun k => by
      rw [sectionOf_setPolicy (by rw [hstage]; rfl) p k]
      refine (hcopies k).of_keeps (hstored.coherent.wellFormed k) ?_
      rintro rfl
      rw [sectionOf_withHeader_of_ne _ (by decide), hlays.items .debugInfo rfl, hdebug])
    (fun _ => isOrdered_of_placeWithin hwf hdistinct hreorders hplace)
    (fun _ k hk => isSorted_of_placeWithin hwf hclosed hsorts hplace hk)
  obtain ⟨f, b, hb, hsize⟩ := exists_toImage hcoherent
    ((keepsItems_setPolicy g p).closed hread.closed) (hsettled.placeWithin 15)
  exact ⟨g, f, b, hg, hb, hsize.trans hstored.size.symm⟩

/-- The container with one method is put into all orders and written, read under any options, and
written again under any policy. -/
theorem exists_toImage_twice_oneMethod (o : Options) (p : Policy) : ∃ c d image g e b,
    oneMethod = .ok c ∧ (c.setPolicy ⟨true, false⟩).toImage = .ok (d, image) ∧
      image.size = 284 ∧ (∀ r, ofImage r image o = .ok g) ∧
      (g.setPolicy p).toImage = .ok (e, b) ∧ b.size = 284 := by
  have hplace : (oneMethod >>= fun c => (·.2) <$> (c.setPolicy ⟨true, false⟩).place) =
      .ok 284 := by
    cbv
  obtain ⟨c, hc, hplace⟩ := bind_eq_ok.1 hplace
  obtain ⟨⟨d, fileSize⟩, hd, rfl⟩ := map_eq_ok.1 hplace
  have hkeeps := keepsItems_setPolicy c ⟨true, false⟩
  have hreachable := (reachable_of_oneMethod hc).setPolicy ⟨true, false⟩
  have hclosed := hkeeps.closed (closed_of_oneMethod hc)
  obtain ⟨f, image, himage, hsize⟩ := exists_toImage hreachable.coherent hclosed hd
  have hdebug : ((c.setPolicy ⟨true, false⟩).sectionOf .debugInfo).items.size = 0 := by
    obtain ⟨-, -, -, -, -, -, -, hsizes⟩ := items_of_oneMethod hc
    simp only [Kind.readOrder, List.map_cons, List.map_nil, List.cons.injEq] at hsizes
    rw [hkeeps]
    exact hsizes.2.2.2.2.2.2.2.2.2.2.2.2.2.2.2.2.1
  obtain ⟨g, e, b, hg, hb, hsize'⟩ := exists_toImage_of_ordered hreachable hclosed
    (hkeeps.encodable (encodable_of_oneMethod hc).1)
    (hkeeps.hasDistinctClasses (hasDistinctClasses_of_oneMethod hc))
    (by rw [policy_setPolicy]; rfl) (by rw [policy_setPolicy]; rfl) hdebug himage
    (by rw [hsize]; decide) o p
  exact ⟨c, f, image, g, e, b, hc, himage, hsize, hg, hb, hsize'.trans hsize⟩

/-- An image that was accepted can be written again whatever policies are set, unless code keeps
moving, and what is written is accepted and has the same content. -/
theorem sameContent_of_ofImage {r : RowOrder} (h : ofImage r image o = .ok c) (ps : List Policy) :
    (∀ e, (ps.foldl setPolicy c).toImage = .error e → e = .violation (.unsettled maxRounds)) ∧
    ∀ d b, (ps.foldl setPolicy c).toImage = .ok (d, b) → b.size < 2 ^ 32 →
      ∃ g ρ, (∀ r, ofImage r b o = .ok g) ∧
        c.SameContent ρ (fun k => (d.sectionOf k).handles) g := by
  obtain ⟨hc, -⟩ := isAccepted_of_ofImage h
  have hkeeps := keepsItems_setPolicies c ps
  have hcoherent := hc.coherent.setPolicies ps
  refine ⟨fun e he => eq_unsettled_of_toImage hcoherent (hkeeps.closed hc.closed) he,
    fun d b hb hshort => ?_⟩
  have hencodable : (ps.foldl setPolicy c).Encodable :=
    hkeeps.encodable fun k x y _ hy => hc.encodable k x y hy
  obtain ⟨e, checksum, signature, g, ρ, hlays, rfl, hg, hcopies⟩ :=
    exists_of_toImage hcoherent hencodable hb hshort o
  have hexact : (ps.foldl setPolicy c).Exact o.preserveSignedRegisters := by
    intro k x y _ hy
    rw [hkeeps.get?] at hy
    exact hc.asRead k x y hy
  refine ⟨g, ρ, hg, ?_⟩
  exact (sameContent_of_copies hcoherent hexact hlays
    (isAccepted_of_ofImage (hg .stored)).1.coherent
    hcopies).of_keepsItems hkeeps

/-- A file with one method is read, sorted and written again, and what is written is read with the
same content. -/
theorem sameContent_of_ofImage_oneMethod : ∃ a e image c d b g ρ, oneMethod = .ok a ∧
    (a.setPolicy ⟨true, false⟩).toImage = .ok (e, image) ∧ image.size = 284 ∧
      ofImage .stored image {} = .ok c ∧ (c.setPolicy ⟨true, false⟩).toImage = .ok (d, b) ∧
      ofImage .stored b {} = .ok g ∧ c.SameContent ρ (fun k => (d.sectionOf k).handles) g := by
  obtain ⟨a, e, image, c, d, b, ha, himage, hsize, hc, hb, hsize'⟩ :=
    exists_toImage_twice_oneMethod {} ⟨true, false⟩
  obtain ⟨-, hread⟩ := sameContent_of_ofImage (hc .stored) [⟨true, false⟩]
  obtain ⟨g, ρ, hg, hsame⟩ := hread d b hb (by rw [hsize']; decide)
  exact ⟨a, e, image, c, d, b, g, ρ, ha, himage, hsize, hc .stored, hb, hg .stored, hsame⟩

end Container

end DexContainer
