import DexContainer.Proofs.Container.Writing
import DexContainer.Proofs.Section.Reading

/-! Copies of a container. A copy holds the same items under other handles at the same positions, so
it stands and is written as the container that it is a copy of. Main statements: `IsCopy.stacked`
and `IsCopy.contents`. -/

namespace DexContainer

variable {k : Kind} {places places' : Places} {ρ : Renaming} {keeps : Bool}

namespace Section

variable {s t : Section k}

/-- Items that are apart stay apart. -/
theorem Copies.injective (h : s.Copies ρ keeps t) (ht : t.WellFormed) {id id' : Nat}
    (hid : id ∈ s.order.toList) (hid' : id' ∈ s.order.toList) (heq : ρ k ⟨id⟩ = ρ k ⟨id'⟩) :
    id = id' := by
  have hnodup := ht.nodup
  rw [h.order] at hnodup
  exact List.inj_on_of_nodup_map hnodup hid hid' (congrArg Handle.id heq)

theorem Copies.positionsInOrder (h : s.Copies ρ keeps t) :
    t.positionsInOrder = s.positionsInOrder := by
  rw [positionsInOrder_eq, positionsInOrder_eq, h.order, List.map_map]
  exact List.map_congr_left h.positions

theorem Copies.stands {l : Layout} (h : s.Copies ρ keeps t) (hl : s.Stands l) : t.Stands l :=
  ⟨h.positionsInOrder.trans hl.positions, h.offset?.trans hl.offset?,
    h.byteSize.trans hl.byteSize⟩

/-- What is computed of the items one by one is the same for a copy. -/
theorem Copies.mapM_get {β : Type} {f g : Content k → Except Violation β}
    (h : s.Copies ρ keeps t) (hs : s.WellFormed)
    (hfg : ∀ id x, s.get? ⟨id⟩ = some x →
      g (Content.asRead keeps k (Content.rename ρ k x)) = f x) :
    (t.order.toList.mapM fun id => t.get ⟨id⟩ >>= g) =
      s.order.toList.mapM fun id => s.get ⟨id⟩ >>= f := by
  rw [h.order, mapM_map]
  refine mapM_congr fun id hid => ?_
  obtain ⟨x, hx⟩ : ∃ x, s.get? ⟨id⟩ = some x :=
    ⟨_, Array.getElem?_eq_getElem (hs.mem_order.1 hid)⟩
  have hy := h.items id hid
  rw [hx, Option.map_some] at hy
  rw [get_eq_ok.2 hx, get_eq_ok.2 hy, ok_bind, ok_bind, hfg id x hx]

end Section

namespace Container

variable {c g : Container} {ks : List Kind} {start finish : Nat} {out : Image}

/-- A container in which every handle leads to an item that has its place and can be encoded, and
what is read of it. -/
structure IsCopy (ρ : Renaming) (c g : Container) : Prop where
  closed : c.Closed
  placed : ∀ (k : Kind) (h : Handle k), c.Resolves k h → c.places.IsPlaced k h
  encodable : ∀ (k : Kind) (h : Handle k) (x : Content k), (c.sectionOf k).get? h = some x →
    Content.IsEncodable k x
  wellFormed : c.SectionsWellFormed
  wellFormed_copy : g.SectionsWellFormed
  sections : ∀ k, (c.sectionOf k).Copies ρ true (g.sectionOf k)

variable {x y : Handle k}

theorem IsCopy.mem_order (h : c.IsCopy ρ g) (hx : c.Resolves k x) :
    x.id ∈ (c.sectionOf k).order.toList :=
  (h.wellFormed k).mem_order.2 (resolves_iff.1 hx)

theorem IsCopy.get? {z : Content k} (h : c.IsCopy ρ g) (hz : (c.sectionOf k).get? x = some z) :
    (g.sectionOf k).get? (ρ k x) = some (Content.rename ρ k (Content.asRead true k z)) := by
  have hitem := (h.sections k).items x.id (h.mem_order ⟨z, hz⟩)
  rwa [hz, Option.map_some, Content.asRead_rename] at hitem

theorem IsCopy.injective (h : c.IsCopy ρ g) (hx : c.Resolves k x) (hy : c.Resolves k y)
    (heq : ρ k x = ρ k y) : x = y := by
  have := (h.sections k).injective (h.wellFormed_copy k) (h.mem_order hx) (h.mem_order hy) heq
  obtain ⟨id⟩ := x
  exact congrArg Handle.mk this

theorem IsCopy.agrees (h : c.IsCopy ρ g) (hx : c.Resolves k x) :
    c.places.Agrees g.places ρ k x := by
  obtain ⟨n, hn⟩ := h.placed k x hx
  exact Places.agrees_of_position? hn
    (((h.sections k).positions x.id (h.mem_order hx)).trans hn)

theorem IsCopy.table (h : c.IsCopy ρ g) : g.places.table = c.places.table := by
  funext k
  have hsize : (g.sectionOf k).size = (c.sectionOf k).size := (h.sections k).size
  exact congrArg₂ Prod.mk hsize (congrArg (Option.getD · 0) (h.sections k).offset?)

theorem IsCopy.each_agrees {z : Content k} (h : c.IsCopy ρ g)
    (hz : (c.sectionOf k).get? x = some z) :
    Each (c.places.Agrees g.places ρ) (Content.handles k (Content.asRead true k z)) :=
  (Content.each_handles_asRead true (h.closed k x z hz)).mono fun _ _ => h.agrees

theorem IsCopy.sizes (h : c.IsCopy ρ g) (k : Kind) :
    (g.sectionOf k).sizes g.places = (c.sectionOf k).sizes c.places := by
  refine (h.sections k).mapM_get (h.wellFormed k) fun id z hz => ?_
  rw [Content.asRead_rename,
    Content.size_rename ((h.each_agrees hz).mono fun _ _ hy => hy.measures),
    Content.size_asRead _ (h.encodable k _ z hz)]

theorem IsCopy.contents (h : c.IsCopy ρ g) (k : Kind) :
    (g.sectionOf k).contents g.places = (c.sectionOf k).contents c.places := by
  refine (h.sections k).mapM_get (h.wellFormed k) fun id z hz => ?_
  rw [Content.asRead_rename, Content.write_rename (h.each_agrees hz) fun _ => h.table,
    Content.write_asRead _ (h.encodable k _ z hz)]

/-- A copy stands where the container stands. -/
theorem IsCopy.stacked (h : c.IsCopy ρ g) (hc : c.Stacked ks start finish) :
    g.Stacked ks start finish := by
  induction ks generalizing start with
  | nil => exact hc
  | cons k ks ih =>
    obtain ⟨sizes, hsizes, hstands, hc⟩ := hc
    exact ⟨sizes, (h.sizes k).trans hsizes, (h.sections k).stands hstands, ih hc⟩

/-- Containers whose items have the same bytes are written alike. -/
theorem writeSections_congr
    (h : ∀ k ∈ ks, (g.sectionOf k).contents g.places = (c.sectionOf k).contents c.places) :
    g.writeSections ks out = c.writeSections ks out := by
  induction ks generalizing out with
  | nil => rfl
  | cons k ks ih =>
    have hk := h k (List.mem_cons_self ..)
    rw [writeSections, writeSections, List.foldlM_cons, List.foldlM_cons, Section.write_eq,
      Section.write_eq, hk]
    cases (c.sectionOf k).contents c.places with
    | error e => rfl
    | ok bss => exact ih fun j hj => h j (List.mem_cons_of_mem _ hj)

end Container

end DexContainer
