import DexContainer.Container.Interning
import DexContainer.Container.Writing
import DexContainer.Proofs.Container.Placement

/-! The containers that can occur. A container starts empty or is read from an image, and then
content is added, the policy is changed, and it is laid out and written, in any order. Main
statements: `coherent_of_placeWithin`, a layout keeps what holds of such a container and gives every
item its place, and `Coherent.intern` and `Coherent.setPolicy`, adding and changing keep it as
well. -/

namespace DexContainer

variable {k : Kind}

/-- What every item in a container satisfies: a header has an accepted magic number, and other items
have an encoding. -/
def Content.IsAdmitted : (k : Kind) → Content k → Prop
  | .header, x => Header.IsAccepted x
  | k, x => Content.check k x = .ok ()

theorem Content.IsAdmitted.check {x : Content k} (h : Content.IsAdmitted k x) :
    Content.check k x = .ok () := by
  cases k <;> first | rfl | exact h

theorem Content.isAdmitted_of_check {x : Content k} (hk : k.isSingleton = false)
    (h : Content.check k x = .ok ()) : Content.IsAdmitted k x := by
  cases k <;> first | exact h | cases hk

namespace Section

/-- The section holds together, and its items keep their numbers if others are measured by them. -/
structure IsCoherent (s : Section k) : Prop where
  wellFormed : s.WellFormed
  singleton : k.isSingleton = true → s.items.size = 1
  items : ∀ (h : Handle k) (x : Content k), s.get? h = some x → Content.IsAdmitted k x
  order : k.isNumbered = true → s.order = Array.range s.items.size
  positions : k.isNumbered = true → ∀ (h : Handle k) (n : Nat), s.position? h = some n → n = h.id

variable {s : Section k}

theorem get?_push (s : Section k) (x : Content k) (h : Handle k) :
    (s.push x).get? h = if h.id = s.size then some x else s.get? h := by
  cases s
  exact Array.getElem?_push

theorem isCoherent_empty (hk : k.isSingleton = false) : ({} : Section k).IsCoherent := by
  refine ⟨wellFormed_empty, fun h => ?_, fun h x hx => ?_, fun _ => rfl, fun _ h n hn => ?_⟩
  · rw [hk] at h
    cases h
  · exact absurd hx (by simp [get?])
  · exact absurd hn (by simp [position?])

theorem isNumbered_of_isSingleton (hk : k.isSingleton = true) : k.isNumbered = false := by
  cases k <;> first | rfl | cases hk

/-- The section of a singleton. -/
theorem isCoherent_singleton (hk : k.isSingleton = true) {x : Content k}
    (hx : Content.IsAdmitted k x) : (push {} x).IsCoherent := by
  have hnumbered := isNumbered_of_isSingleton hk
  refine ⟨wellFormed_empty.push x, fun _ => rfl, fun h y hy => ?_, fun h => ?_, fun h => ?_⟩
  · rw [get?_push] at hy
    split at hy
    · rwa [← Option.some.inj hy]
    · exact absurd hy (by simp [get?])
  · rw [hnumbered] at h
    cases h
  · rw [hnumbered] at h
    cases h

theorem IsCoherent.invalidate (hs : s.IsCoherent) : s.invalidate.IsCoherent := by
  refine ⟨hs.wellFormed.invalidate, hs.singleton, hs.items, hs.order, fun _ h n hn => ?_⟩
  rw [position?_invalidate] at hn
  cases hn

theorem IsCoherent.append {x : Content k} (hs : s.IsCoherent) (hk : k.isSingleton = false)
    (hx : Content.check k x = .ok ()) : (s.append x).IsCoherent := by
  refine ⟨hs.wellFormed.append x, fun h => ?_, fun h y hy => ?_, fun h => ?_, fun hk h n hn => ?_⟩
  · rw [hk] at h
    cases h
  · rw [get?_append] at hy
    split at hy
    · cases hy
      exact Content.isAdmitted_of_check hk hx
    · exact hs.items h y hy
  · have horder := hs.order h
    cases s
    simp only [Section.append, Array.size_push] at horder ⊢
    rw [horder, Array.range_succ, Array.push_eq_append]
  · rw [position?_append s x h hs.wellFormed.positions] at hn
    exact hs.positions hk h n hn

/-- After a layout the items of a numbered section still have their numbers. -/
theorem positions_of_stands {start : Nat} {sizes : List Nat} {places : Places}
    (hs : s.WellFormed) (hk : k.isNumbered = true) (horder : s.order = Array.range s.items.size)
    (hsizes : s.sizes places = .ok sizes) (hstands : s.Stands (layoutOf k start sizes))
    (h : Handle k) (n : Nat) (hn : s.position? h = some n) : n = h.id := by
  have hindexed : k.isIndexed = true := by cases k <;> first | rfl | cases hk
  have hlt : h.id < s.items.size := hs.lt_of_position? hn
  have hi : h.id < s.order.toList.length := by rwa [hs.length_order]
  have hposition := hstands.position?_of_isIndexed hindexed
    ((length_of_mapM hsizes).trans (Array.length_toList ..)) hi
  have hid : s.order.toList[h.id] = h.id := by simp [horder]
  rw [hid, hn] at hposition
  exact Option.some.inj hposition

end Section

namespace Container

variable {c d : Container} {start finish rounds : Nat}

/-- Every section holds together, and the container stands as it was laid out unless it was changed
since. -/
structure Coherent (c : Container) : Prop where
  sections : ∀ k, (c.sectionOf k).IsCoherent
  placed : c.stage.isPlaced = true → ∃ dataEnd, c.LaidOut dataEnd

theorem Coherent.wellFormed (hc : c.Coherent) : c.SectionsWellFormed :=
  fun k => (hc.sections k).wellFormed

theorem Coherent.singletons (hc : c.Coherent) : c.HasSingletons :=
  ⟨(hc.sections .header).singleton rfl, (hc.sections .mapList).singleton rfl⟩

/-- A singleton is found under its only handle. -/
theorem get?_of_size_one {s : Section k} (h : s.items.size = 1) : ∃ x, s.get? ⟨0⟩ = some x := by
  have hlt : 0 < s.items.size := by
    rw [h]
    decide
  exact ⟨_, Array.getElem?_eq_getElem hlt⟩

theorem id_of_size_one {s : Section k} (hs : s.items.size = 1) {h : Handle k} {x : Content k}
    (hx : s.get? h = some x) : h = ⟨0⟩ := by
  obtain ⟨id⟩ := h
  have hlt : id < s.items.size := (Array.getElem?_eq_some_iff.1 hx).1
  congr
  omega

theorem HasSingletons.get?_header (hs : c.HasSingletons) :
    (c.sectionOf .header).get? ⟨0⟩ = some c.header := by
  obtain ⟨x, hx⟩ := get?_of_size_one hs.header
  rw [hx, header_eq hx]

theorem HasSingletons.get?_map (hs : c.HasSingletons) :
    (c.sectionOf .mapList).get? ⟨0⟩ = some c.map := by
  obtain ⟨x, hx⟩ := get?_of_size_one hs.map
  rw [hx, map_eq hx]

theorem Coherent.header (hc : c.Coherent) : c.header.IsAccepted :=
  (hc.sections .header).items _ _ hc.singletons.get?_header

theorem Coherent.numbers (hc : c.Coherent) (k : Kind) (h : Handle k) : c.places.Numbers k h :=
  fun hk n hn => (hc.sections k).positions hk h n hn

theorem coherent_empty (o : Options) : (empty o).Coherent := by
  refine ⟨fun k => ?_, fun h => by cases h⟩
  cases k with
  | header => exact Section.isCoherent_singleton rfl Header.isAccepted_default
  | mapList => exact Section.isCoherent_singleton (k := .mapList) rfl rfl
  | _ => exact Section.isCoherent_empty rfl

/-! ### Adding and changing -/

theorem isCoherent_modifySection {f : Section k → Section k}
    (hc : ∀ j, (c.sectionOf j).IsCoherent) (hf : (f (c.sectionOf k)).IsCoherent) (j : Kind) :
    ((c.modifySection k f).sectionOf j).IsCoherent :=
  forall_modifySection (P := fun _ s => s.IsCoherent) hf (fun j _ => hc j) j

theorem isCoherent_invalidate (hc : ∀ k, (c.sectionOf k).IsCoherent) (k : Kind) :
    (c.invalidate.sectionOf k).IsCoherent := by
  rw [invalidate]
  generalize Kind.readOrder = ks
  induction ks generalizing c with
  | nil => exact hc k
  | cons j ks ih => exact ih (isCoherent_modifySection hc (hc j).invalidate)

theorem coherent_markMutated (hc : ∀ k, (c.sectionOf k).IsCoherent) : c.markMutated.Coherent := by
  rw [markMutated]
  split
  · exact ⟨isCoherent_invalidate hc, fun h => by cases h⟩
  · exact ⟨hc, fun h => by cases h⟩

theorem Coherent.setPolicy (hc : c.Coherent) (p : Policy) : (c.setPolicy p).Coherent := by
  rw [Container.setPolicy]
  split
  · exact hc
  · exact coherent_markMutated hc.sections

/-- Adding keeps a container that holds the content, and appends it to any other one. -/
theorem intern_eq_ok {x : Content k} {y : Handle k} : c.intern x = .ok (d, y) ↔
    k.isSingleton = false ∧ Content.check k x = .ok () ∧
      ((c.sectionOf k).find? x = some y ∧ c = d ∨ (c.sectionOf k).find? x = none ∧
        y = ⟨(c.sectionOf k).size⟩ ∧ (c.modifySection k (·.append x)).markMutated = d) := by
  rw [Container.intern]
  cases hk : k.isSingleton with
  | true => simp
  | false =>
    simp only [Bool.false_eq_true, if_false, bind_eq_ok]
    cases hfind : (c.sectionOf k).find? x with
    | some h =>
      constructor
      · rintro ⟨_, hcheck, heq⟩
        cases heq
        exact ⟨trivial, hcheck, .inl ⟨rfl, rfl⟩⟩
      · rintro ⟨-, hcheck, ⟨hy, rfl⟩ | ⟨hnone, -⟩⟩
        · exact ⟨(), hcheck, by rw [Option.some.inj hy]; rfl⟩
        · cases hnone
    | none =>
      constructor
      · rintro ⟨_, hcheck, heq⟩
        cases heq
        exact ⟨trivial, hcheck, .inr ⟨rfl, rfl, rfl⟩⟩
      · rintro ⟨-, hcheck, ⟨hsome, -⟩ | ⟨-, rfl, rfl⟩⟩
        · cases hsome
        · exact ⟨(), hcheck, rfl⟩

theorem Coherent.intern {x : Content k} {h : Handle k} (hc : c.Coherent)
    (hd : c.intern x = .ok (d, h)) : d.Coherent := by
  obtain ⟨hk, hcheck, ⟨-, rfl⟩ | ⟨-, -, rfl⟩⟩ := intern_eq_ok.1 hd
  · exact hc
  · exact coherent_markMutated
      (isCoherent_modifySection hc.sections ((hc.sections k).append hk hcheck))

/-! ### Laying out and writing -/

theorem le_next_layoutOf (k : Kind) (start : Nat) (sizes : List Nat) :
    start ≤ (Section.layoutOf k start sizes).next := by
  rw [Section.layoutOf]
  split
  · exact Nat.le_refl _
  · exact Nat.le_trans (Section.le_alignUp k start) (Section.le_finishFrom k _ sizes)

theorem Stacked.le {ks : List Kind} (h : c.Stacked ks start finish) : start ≤ finish := by
  induction ks generalizing start with
  | nil => exact Nat.le_of_eq h
  | cons k ks ih =>
    obtain ⟨sizes, -, -, h⟩ := h
    exact Nat.le_trans (le_next_layoutOf k start sizes) (ih h)

/-- Each of the sections stands as it was laid out. -/
theorem Stacked.stands {ks : List Kind} (h : c.Stacked ks start finish) (hk : k ∈ ks) :
    ∃ first sizes, start ≤ first ∧ (c.sectionOf k).sizes c.places = .ok sizes ∧
      (c.sectionOf k).Stands (Section.layoutOf k first sizes) ∧
      (Section.layoutOf k first sizes).next ≤ finish := by
  induction ks generalizing start with
  | nil => exact absurd hk (by simp)
  | cons j ks ih =>
    obtain ⟨sizes, hsizes, hstands, h⟩ := h
    rcases List.mem_cons.1 hk with rfl | hk
    · exact ⟨start, sizes, Nat.le_refl _, hsizes, hstands, h.le⟩
    · obtain ⟨first, ns, hfirst, hrest⟩ := ih h hk
      exact ⟨first, ns, Nat.le_trans (le_next_layoutOf j start sizes) hfirst, hrest⟩

theorem isSingleton_of_isNumbered (hk : k.isNumbered = true) : k.isSingleton = false := by
  revert hk
  cases k <;> decide

theorem not_movable_of_isNumbered (hk : k.isNumbered = true) : ¬Movable k := by
  rw [Movable]
  revert hk
  cases k <;> decide

theorem coherent_of_placeWithin {fileSize : Nat} (hc : c.Coherent)
    (h : c.placeWithin rounds = .ok (d, fileSize)) : d.Coherent := by
  obtain ⟨hd, -, dataEnd, hlaid⟩ := laidOut_of_placeWithin hc.wellFormed hc.singletons h
  have horder : ∀ k, k.isNumbered = true →
      (d.sectionOf k).order = Array.range (d.sectionOf k).items.size := by
    intro k hk
    rw [hd.fixed k (not_movable_of_isNumbered hk), hd.items k (isSingleton_of_isNumbered hk),
      (hc.sections k).order hk]
  refine ⟨fun k => ⟨hd.wellFormed k, fun hk => ?_, fun h x hx => ?_, fun hk => ?_, fun hk => ?_⟩,
    fun _ => ⟨dataEnd, hlaid⟩⟩
  · cases k <;> first | exact hd.singletons.header | exact hd.singletons.map | cases hk
  · cases k with
    | header =>
      obtain rfl := id_of_size_one hd.singletons.header hx
      rw [hd.singletons.get?_header] at hx
      cases hx
      exact ⟨hd.magic ▸ hc.header.magic, hd.linkSize ▸ hc.header.linkSize,
        hd.linkOffset ▸ hc.header.linkOffset⟩
    | mapList => exact rfl
    | _ =>
      rw [hd.items.get? rfl] at hx
      exact (hc.sections _).items h x hx
  · exact horder k hk
  · have hmem : k ∈ Kind.header :: Kind.tables := by
      revert hk
      cases k <;> decide
    obtain ⟨first, sizes, -, hsizes, hstands, -⟩ := hlaid.tables.stands hmem
    exact Section.positions_of_stands (hd.wellFormed k) hk (horder k hk) hsizes hstands

end Container

end DexContainer
