import DexContainer.Proofs.Container.Operations
import DexContainer.Proofs.Container.Rewriting

/-! The operands of instructions. Code units name strings, types, prototypes, fields and methods by
their numbers, and are written as they are, so they keep their meaning only while every entry keeps
its number. Main statements: `extends_of_run`, whatever is done, everything stays under its handle;
and `keepsOperands_of_run`, the number of an entry is its handle in whatever layout, and entries and
code units that were there at first are written, and read back, under the numbers they had. -/

namespace DexContainer

variable {k : Kind}

/-- The part of an image that an item takes whose first bytes are known. -/
theorem toList_extract_of_isPrefix {image : Image} {start : Nat} {as bs : Bytes}
    (h : as ++ bs <+: image.toList.drop start) :
    (image.extract (start + as.length) (start + as.length + bs.length)).toList = bs := by
  obtain ⟨tail, htail⟩ := h
  rw [Array.toList_extract, List.extract_eq_take_drop, Nat.add_sub_cancel_left, ← List.drop_drop,
    ← htail, List.append_assoc, List.drop_left, List.take_left]

theorem Code.units_of_write {places : Places} {x : Code} {bs : Bytes}
    (h : x.write places = .ok bs) :
    ∃ first : Bytes, first.length = 16 ∧
      first ++ (x.units.flatMap fun u => Word.half u.toNat) <+: bs := by
  obtain ⟨debugInfo, -, ⟨-, rfl⟩ | ⟨-, cs, -, rfl⟩⟩ := Code.write_eq_ok.1 h
  · exact ⟨_, by simp, List.prefix_refl _⟩
  · exact ⟨_, by simp, List.prefix_append _ _⟩

namespace Container

variable {c d e start : Container} {image : Image}

/-! ### What stays under its handle -/

/-- Whatever is found in the first container is found under the same handle in the second one. -/
def Extends (c d : Container) : Prop := ∀ (k : Kind) (h : Handle k) (x : Content k),
  k.isSingleton = false → c.get h = .ok x → d.get h = .ok x

theorem Extends.refl (c : Container) : c.Extends c := fun _ _ _ _ hx => hx

theorem Extends.trans (h : c.Extends d) (h' : d.Extends e) : c.Extends e :=
  fun k y x hk hx => h' k y x hk (h k y x hk hx)

theorem KeepsContent.extends (h : c.KeepsContent d) : c.Extends d := fun k y x hk hx => by
  rwa [h.get hk]

theorem extends_of_intern {x : Content k} {y : Handle k} (h : c.intern x = .ok (d, y)) :
    c.Extends d :=
  fun _ _ _ _ hz => get_eq_ok.2 (get?_of_intern h (get_eq_ok.1 hz))

/-- Whatever is done, everything stays under its handle. -/
theorem extends_of_run {ops : List Operation} (hc : start.Reachable)
    (h : start.run ops = .ok c) : start.Extends c :=
  hc.of_run (P := start.Extends) (fun _ hd he => he.trans (extends_of_intern hd))
    (fun hd he => he.trans hd.extends) h (.refl start)

/-! ### Numbers -/

/-- The entry of a table with a number in file order. -/
def itemAt? (c : Container) (k : Kind) (n : Nat) : Option (Content k) :=
  (c.sectionOf k).handles[n]?.bind (c.sectionOf k).get?

theorem Coherent.order_eq_range (hc : c.Coherent) (hk : k.isNumbered = true) :
    (c.sectionOf k).order = Array.range (c.sectionOf k).size :=
  (hc.sections k).order hk

/-- The number of an entry is its handle. -/
theorem Coherent.itemAt?_eq (hc : c.Coherent) (hk : k.isNumbered = true) (n : Nat) :
    c.itemAt? k n = (c.sectionOf k).get? ⟨n⟩ := by
  rw [itemAt?, Section.handles, hc.order_eq_range hk, Array.toList_range, List.getElem?_map]
  by_cases hn : n < (c.sectionOf k).size
  · rw [List.getElem?_range hn]
    rfl
  · rw [List.getElem?_eq_none (by simpa using hn), Section.get?, Array.getElem?_eq_none (by
      simpa [Section.size] using hn)]
    rfl

theorem Coherent.itemAt?_eq_some_iff (hc : c.Coherent) (hk : k.isNumbered = true) {n : Nat}
    {x : Content k} : c.itemAt? k n = some x ↔ c.get (⟨n⟩ : Handle k) = .ok x := by
  rw [hc.itemAt?_eq hk, get_eq_ok]

/-- In a layout an entry is at the number that is its handle. -/
theorem position?_of_laidOut {dataEnd : Nat} (hc : c.Coherent) (hlaid : c.LaidOut dataEnd)
    (hk : k.isNumbered = true) {h : Handle k} (hh : c.Resolves k h) :
    c.position? h = some h.id := by
  obtain ⟨n, hn⟩ := hlaid.isPlaced hc.wellFormed hh
  obtain rfl := hc.numbers k h hk n hn
  exact hn

theorem position?_of_place {fileSize : Nat} (hc : c.Coherent) (h : c.place = .ok (d, fileSize))
    (hk : k.isNumbered = true) {y : Handle k} (hy : c.Resolves k y) :
    d.position? y = some y.id := by
  obtain ⟨hlays, -, dataEnd, hlaid⟩ := laidOut_of_placeWithin hc.wellFormed hc.singletons h
  exact position?_of_laidOut (hc.place h) hlaid hk ((resolves_of_laysOut hc.wellFormed hlays).2 hy)

/-! ### In the file -/

/-- The entry with a number is the entry of the file with that number. -/
theorem exists_entry_of_write (hc : c.Coherent) (hwrite : c.write = .ok (d, image))
    (hk : k.isNumbered = true) {n : Nat} {x : Content k} (hx : c.get (⟨n⟩ : Handle k) = .ok x) :
    ∃ offset bs, (c.sectionOf k).offset? = some offset ∧ Content.write c.places k x = .ok bs ∧
      (image.extract (offset + n * bs.length) (offset + (n + 1) * bs.length)).toList = bs := by
  obtain ⟨hstage, himage, -⟩ := write_eq_ok.1 hwrite
  obtain ⟨dataEnd, hlaid⟩ := hc.placed hstage
  obtain ⟨first, bs, hoffset, hbs, hprefix⟩ :=
    exists_bytes_of_image hc.wellFormed hc.singletons hlaid himage hx
  have hindexed : k.isIndexed = true := by
    revert hk
    cases k <;> decide
  obtain ⟨width, hwidth⟩ : ∃ width, k.entrySize? = some width := by
    revert hk
    cases k <;> simp [Kind.isNumbered, Kind.entrySize?]
  have hlength : bs.length = width := by
    have := Content.size_of_write hbs
    rw [Content.size_of_entrySize? hwidth] at this
    exact (Except.ok.inj this).symm
  have hposition := position?_of_laidOut hc hlaid hk ⟨x, get_eq_ok.1 hx⟩
  rw [Section.offsetOf?, if_pos hindexed, hwidth] at hoffset
  obtain ⟨offset, hsection, hrest⟩ := Option.bind_eq_some_iff.1 hoffset
  obtain ⟨m, hm, hfirst⟩ := Option.bind_eq_some_iff.1 hrest
  obtain rfl : m = n := Option.some.inj (hm.symm.trans hposition)
  obtain rfl : offset + m * width = first := Option.some.inj hfirst
  refine ⟨offset, bs, hsection, hbs, ?_⟩
  have := @toList_extract_of_isPrefix _ _ [] _ hprefix
  rwa [List.length_nil, Nat.add_zero, hlength, Nat.add_assoc, ← Nat.succ_mul, ← hlength] at this

/-- The code units of a method body stand behind its sixteen first bytes. -/
theorem exists_units_of_write (hc : c.Coherent) (hwrite : c.write = .ok (d, image))
    {h : Handle .code} {x : Code} (hx : c.get h = .ok x) : ∃ offset, c.position? h = some offset ∧
      (image.extract (offset + 16) (offset + 16 + 2 * x.units.length)).toList =
        x.units.flatMap fun u => Word.half u.toNat := by
  obtain ⟨hstage, himage, -⟩ := write_eq_ok.1 hwrite
  obtain ⟨dataEnd, hlaid⟩ := hc.placed hstage
  obtain ⟨offset, bs, hoffset, hbs, hprefix⟩ :=
    exists_bytes_of_image hc.wellFormed hc.singletons hlaid himage hx
  obtain ⟨first, hfirst, hunits⟩ := Code.units_of_write hbs
  have hlength : (x.units.flatMap fun u => Word.half u.toNat).length = 2 * x.units.length := by
    rw [List.length_flatMap, List.map_congr_left fun u _ => Word.half_length u.toNat]
    simp [Nat.mul_comm]
  have := toList_extract_of_isPrefix (hunits.trans hprefix)
  rw [hfirst, hlength] at this
  exact ⟨offset, hoffset, this⟩

/-! ### Read back -/

/-- A copy of a table in the order of its handles keeps the handles. -/
theorem renaming_of_copies {s t : Section k} {ρ : Renaming} {keeps : Bool}
    (hs : s.order = Array.range s.items.size) (ht : t.order = Array.range t.items.size)
    (h : s.Copies ρ keeps t) {y : Handle k} (hy : y.id < s.items.size) : ρ k y = y := by
  have horder := h.order
  rw [hs, ht, h.size, Array.toList_range] at horder
  have hget := congrArg (·[y.id]?) horder
  simp only [List.getElem?_map, List.getElem?_range hy, Option.map_some, Option.some.injEq] at hget
  exact congrArg Handle.mk hget.symm

/-- What is written and read back has all items, and entries have the numbers they had. -/
theorem exists_ofImage_of_toImage (hc : c.Coherent) (he : c.Encodable)
    (h : c.toImage = .ok (d, image)) (hshort : image.size < 2 ^ 32) (o : Options) :
    ∃ g ρ, (∀ r, ofImage r image o = .ok g) ∧ g.Coherent ∧
      (∀ (k : Kind) (y : Handle k), k.isNumbered = true → c.Resolves k y → ρ k y = y) ∧
      ∀ (k : Kind) (y : Handle k) (x : Content k), k.isSingleton = false → c.get y = .ok x →
        g.get (ρ k y) =
          .ok (Content.asRead o.preserveSignedRegisters k (Content.rename ρ k x)) := by
  obtain ⟨e, checksum, signature, g, ρ, hlays, -, hg, hcopies⟩ := exists_of_toImage hc he h hshort o
  have hg' := (isAccepted_of_ofImage (hg .stored)).1.coherent
  have hcopy (k : Kind) (hk : k.isSingleton = false) :
      (e.sectionOf k).Copies ρ o.preserveSignedRegisters (g.sectionOf k) := by
    have hne : k ≠ .header := by
      rintro rfl
      cases hk
    have := hcopies k
    rwa [sectionOf_withHeader_of_ne _ hne] at this
  refine ⟨g, ρ, hg, hg', fun k y hk hy => ?_, fun k y x hk hx => ?_⟩
  · have hsingle := isSingleton_of_isNumbered hk
    have horder : (e.sectionOf k).order = Array.range (e.sectionOf k).items.size := by
      rw [hlays.fixed k (not_movable_of_isNumbered hk), hlays.items k hsingle]
      exact hc.order_eq_range hk
    refine renaming_of_copies horder (hg'.order_eq_range hk) (hcopy k hsingle) ?_
    rw [hlays.items k hsingle]
    exact resolves_iff.1 hy
  · have hget := (hlays.items.get? hk y).trans (get_eq_ok.1 hx)
    have hmem := (hlays.wellFormed k).mem_order.2 (resolves_iff.1 ⟨x, hget⟩)
    rw [get_eq_ok, (hcopy k hk).items y.id hmem, hget, Option.map_some]

/-! ### Runs -/

/-- What instructions name in the first container they name in the second one, in its layouts and in
its images. -/
structure KeepsOperands (start c : Container) : Prop where
  /-- Every table is in the order of its handles. -/
  order : ∀ k, k.isNumbered = true → (c.sectionOf k).order = Array.range (c.sectionOf k).size
  /-- Under every policy a layout gives an entry the number that is its handle. -/
  position : ∀ (p : Policy) (d : Container) (fileSize : Nat),
    (c.setPolicy p).place = .ok (d, fileSize) → ∀ (k : Kind) (h : Handle k),
      k.isNumbered = true → c.Resolves k h → d.position? h = some h.id
  /-- An entry that was there at first still has its number. -/
  entries : ∀ (k : Kind) (n : Nat) (x : Content k), k.isNumbered = true →
    start.itemAt? k n = some x → c.itemAt? k n = some x
  /-- The rest of what was there at first is there too. -/
  content : ∀ (k : Kind) (h : Handle k) (x : Content k), k.isSingleton = false →
    start.get h = .ok x → c.get h = .ok x
  /-- In an image an entry that was there at first stands at its number. -/
  written : ∀ (d : Container) (image : Image), c.write = .ok (d, image) →
    ∀ (k : Kind) (n : Nat) (x : Content k), k.isNumbered = true → start.itemAt? k n = some x →
      ∃ offset bs, (c.sectionOf k).offset? = some offset ∧ Content.write c.places k x = .ok bs ∧
        (image.extract (offset + n * bs.length) (offset + (n + 1) * bs.length)).toList = bs
  /-- In an image the code units of a method body that was there at first are as they were. -/
  units : ∀ (d : Container) (image : Image), c.write = .ok (d, image) →
    ∀ (h : Handle .code) (x : Code), start.get h = .ok x →
      ∃ offset, c.position? h = some offset ∧
        (image.extract (offset + 16) (offset + 16 + 2 * x.units.length)).toList =
          x.units.flatMap fun u => Word.half u.toNat
  /-- When an image is read back, an entry that was there at first has its number, the handles in it
  are renamed, though not those of entries, and method bodies have their code units. -/
  reread : c.Encodable → ∀ (d : Container) (image : Image) (o : Options),
    c.toImage = .ok (d, image) → image.size < 2 ^ 32 → ∃ g ρ, (∀ r, ofImage r image o = .ok g) ∧
      (∀ (k : Kind) (h : Handle k), k.isNumbered = true → c.Resolves k h → ρ k h = h) ∧
      (∀ (k : Kind) (n : Nat) (x : Content k), k.isNumbered = true →
        start.itemAt? k n = some x → g.itemAt? k n = some (Content.rename ρ k x)) ∧
      ∀ (h : Handle .code) (x : Code), start.get h = .ok x →
        ∃ y : Code, g.get (ρ .code h) = .ok y ∧ y.units = x.units

theorem asRead_of_isNumbered {keeps : Bool} {x : Content k} (hk : k.isNumbered = true) :
    Content.asRead keeps k x = x := by
  cases k <;> first | rfl | cases hk

/-- Whatever is done in whatever order, instructions name what they named. -/
theorem keepsOperands_of_run {ops : List Operation} (hstart : Start start)
    (hrun : start.run ops = .ok c) : start.KeepsOperands c := by
  have hc := (reachable_of_run hstart hrun).coherent
  have hextends := extends_of_run hstart.reachable hrun
  have hentry {k : Kind} {n : Nat} {x : Content k} (hk : k.isNumbered = true)
      (hx : start.itemAt? k n = some x) : c.get (⟨n⟩ : Handle k) = .ok x :=
    hextends k ⟨n⟩ x (isSingleton_of_isNumbered hk)
      ((hstart.reachable.coherent.itemAt?_eq_some_iff hk).1 hx)
  refine ⟨fun k => hc.order_eq_range, fun p d fileSize hplace k h hk hh => ?_,
    fun k n x hk hx => (hc.itemAt?_eq_some_iff hk).2 (hentry hk hx), hextends,
    fun d image hwrite k n x hk hx => exists_entry_of_write hc hwrite hk (hentry hk hx),
    fun d image hwrite h x hx => exists_units_of_write hc hwrite (hextends .code h x rfl hx),
    fun he d image o himage hshort => ?_⟩
  · refine position?_of_place (hc.setPolicy p) hplace hk ?_
    rw [resolves_iff, keepsItems_setPolicy c p]
    exact resolves_iff.1 hh
  · obtain ⟨g, ρ, hg, hg', hρ, hitems⟩ := exists_ofImage_of_toImage hc he himage hshort o
    refine ⟨g, ρ, hg, hρ, fun k n x hk hx => ?_, fun h x hx => ?_⟩
    · have hget := hentry hk hx
      have hread := hitems k ⟨n⟩ x (isSingleton_of_isNumbered hk) hget
      rw [hρ k ⟨n⟩ hk ⟨x, get_eq_ok.1 hget⟩, asRead_of_isNumbered hk] at hread
      exact (hg'.itemAt?_eq_some_iff hk).2 hread
    · exact ⟨_, hitems .code h x rfl (hextends .code h x rfl hx), rfl⟩

/-- A file with one method is read, a type is added and another policy is set: the method is
there. -/
theorem keepsOperands_of_run_oneMethod : ∃ (image : Image) (start c : Container),
    (∀ r, ofImage r image {} = .ok start) ∧
    start.run [.internType "W", .setSortAllItems true] = .ok c ∧ start.KeepsOperands c ∧
    start.itemAt? .methodId 0 = some ⟨⟨0⟩, ⟨0⟩, ⟨0⟩⟩ ∧
    c.itemAt? .methodId 0 = some ⟨⟨0⟩, ⟨0⟩, ⟨0⟩⟩ := by
  obtain ⟨b, d, image, hb, himage, hsize⟩ := exists_toImage_oneMethod
  obtain ⟨-, hstrings, htypes, hprotos, hmethods, -⟩ := items_of_oneMethod hb
  obtain ⟨start, ρ, hstart, hcoherent, hρ, hitems⟩ := exists_ofImage_of_toImage
    (reachable_of_oneMethod hb).coherent (encodable_of_oneMethod hb).1 himage (by omega) {}
  have hstring : ρ .stringId ⟨0⟩ = ⟨0⟩ := hρ _ _ rfl (resolves_iff.2 (by rw [hstrings]; decide))
  have htype : ρ .typeId ⟨0⟩ = ⟨0⟩ := hρ _ _ rfl (resolves_iff.2 (by rw [htypes]; decide))
  have hproto : ρ .protoId ⟨0⟩ = ⟨0⟩ := hρ _ _ rfl (resolves_iff.2 (by rw [hprotos]; decide))
  have hmethod : ρ .methodId ⟨0⟩ = ⟨0⟩ := hρ _ _ rfl (resolves_iff.2 (by rw [hmethods]; decide))
  have hread := hitems .methodId ⟨0⟩ ⟨⟨0⟩, ⟨0⟩, ⟨0⟩⟩ rfl (by
    rw [get_eq_ok, Section.get?, hmethods]
    rfl)
  rw [hmethod, asRead_of_isNumbered rfl, Content.rename, MethodId.rename, hstring, htype, hproto]
    at hread
  have hentry := (hcoherent.itemAt?_eq_some_iff (k := .methodId) rfl).2 hread
  have hrun : start.run [.internType "W", .setSortAllItems true] = .ok _ := rfl
  have hkeeps := keepsOperands_of_run (.ofImage (hstart .stored)) hrun
  exact ⟨image, start, _, hstart, hrun, hkeeps, hentry, hkeeps.entries .methodId 0 _ rfl hentry⟩

end Container

end DexContainer
