import DexContainer.Container.Placement
import DexContainer.Proofs.Section.Layout

/-! Sections that stand one after the other. The length of an item depends on the positions of few
kinds, so a section keeps standing as it was laid out when other sections move, unless code moves.
Main statements: `stacked_of_placeSections`, sections that were laid out stand as they were laid
out; and `placeSections_of_stacked`, sections that stand so are left alone by a layout. -/

namespace DexContainer

/-- What others are measured by is looked up alike in two tables. -/
def Places.MeasuresAlike (places places' : Places) : Prop :=
  ∀ (k : Kind) (h : Handle k), k.isMeasured = true → places'.position? k h = places.position? k h

namespace Section

variable {k : Kind} {places places' : Places} {s t : Section k}

/-- A section whose items are measured alike is measured alike. -/
theorem sizes_congr_of_size (hitems : t.items = s.items) (horder : t.order = s.order)
    (hsize : ∀ x, Content.size places' k x = Content.size places k x) :
    t.sizes places' = s.sizes places := by
  have hget (id : Nat) : t.get ⟨id⟩ = s.get ⟨id⟩ := by
    simp only [get, get?, hitems]
  simp only [sizes, horder]
  exact mapM_congr fun id _ => by simp only [sizeOf, hget, hsize]

theorem sizes_congr (hitems : t.items = s.items) (horder : t.order = s.order)
    (h : places.MeasuresAlike places') : t.sizes places' = s.sizes places := by
  refine sizes_congr_of_size hitems horder fun x => ?_
  have hx : Each (places.Measures places' fun _ h => h) (Content.handles k x) := by
    intro y _ hy
    rw [Places.Agrees, Places.position, Places.position, h y.1 y.2 hy]
  have := Content.size_rename hx
  rwa [Content.rename_id] at this

theorem sizes_congr_of_isIndexed (hk : k.isIndexed = true) (hitems : t.items = s.items)
    (horder : t.order = s.order) : t.sizes places' = s.sizes places :=
  sizes_congr_of_size hitems horder fun _ => Content.size_of_isIndexed hk

end Section

namespace Container

variable {c d : Container} {k : Kind} {ks : List Kind} {start finish : Nat}

/-- The sections stand one after the other, each as it is laid out behind the one before. -/
def Stacked (c : Container) : List Kind → Nat → Nat → Prop
  | [], start, finish => start = finish
  | k :: ks, start, finish => ∃ sizes, (c.sectionOf k).sizes c.places = .ok sizes ∧
      (c.sectionOf k).Stands (Section.layoutOf k start sizes) ∧
      c.Stacked ks (Section.layoutOf k start sizes).next finish

/-- Every section holds together. -/
def SectionsWellFormed (c : Container) : Prop := ∀ k, (c.sectionOf k).WellFormed

theorem sections_modify_eq_self {s : Sections} {f : Section k → Section k}
    (h : f (s.get k) = s.get k) : s.modify k f = s := by
  cases s
  cases k <;> simp only [Sections.get] at h <;> simp only [Sections.modify, h]

theorem modifySection_eq_self {f : Section k → Section k} (h : f (c.sectionOf k) = c.sectionOf k) :
    c.modifySection k f = c := by
  cases c
  simp only [modifySection, sections_modify_eq_self h]

theorem placeSection_eq_ok : placeSection k c start = .ok (d, finish) ↔
    ∃ sizes, (c.sectionOf k).sizes c.places = .ok sizes ∧
      c.modifySection k (·.applyLayout (Section.layoutOf k start sizes)) = d ∧
      (Section.layoutOf k start sizes).next = finish := by
  simp only [placeSection, Section.layout_eq, bind_eq_ok, pure_eq_ok]
  constructor
  · rintro ⟨l, ⟨sizes, hsizes, rfl⟩, h⟩
    cases h
    exact ⟨sizes, hsizes, rfl, rfl⟩
  · rintro ⟨sizes, hsizes, rfl, rfl⟩
    exact ⟨_, ⟨sizes, hsizes, rfl⟩, rfl⟩

theorem placeSections_nil : placeSections [] c start = .ok (c, start) := rfl

theorem placeSections_cons_eq_ok : placeSections (k :: ks) c start = .ok (d, finish) ↔
    ∃ sizes, (c.sectionOf k).sizes c.places = .ok sizes ∧
      placeSections ks (c.modifySection k (·.applyLayout (Section.layoutOf k start sizes)))
        (Section.layoutOf k start sizes).next = .ok (d, finish) := by
  rw [placeSections, List.foldlM_cons]
  constructor
  · intro h
    obtain ⟨⟨e, next⟩, he, h⟩ := bind_eq_ok.1 h
    obtain ⟨sizes, hsizes, rfl, rfl⟩ := placeSection_eq_ok.1 he
    exact ⟨sizes, hsizes, h⟩
  · rintro ⟨sizes, hsizes, h⟩
    exact bind_eq_ok.2 ⟨_, placeSection_eq_ok.2 ⟨sizes, hsizes, rfl, rfl⟩, h⟩

/-- A layout of sections that stand already leaves the container as it is. -/
theorem placeSections_of_stacked (hc : c.SectionsWellFormed) (h : c.Stacked ks start finish) :
    placeSections ks c start = .ok (c, finish) := by
  induction ks generalizing start with
  | nil =>
    obtain rfl : start = finish := h
    rfl
  | cons k ks ih =>
    obtain ⟨sizes, hsizes, hstands, h⟩ := h
    have hself := modifySection_eq_self (f := (·.applyLayout (Section.layoutOf k start sizes)))
      (Section.applyLayout_eq_self (hc k) hstands)
    exact placeSections_cons_eq_ok.2 ⟨sizes, hsizes, hself.symm ▸ ih h⟩

/-! ### What a layout keeps -/

/-- No item is added, dropped or changed. -/
def KeepsItems (c d : Container) : Prop := ∀ k, (d.sectionOf k).items = (c.sectionOf k).items

/-- No item but the header and the map is added, dropped or changed. -/
def KeepsContent (c d : Container) : Prop :=
  ∀ k, k.isSingleton = false → (d.sectionOf k).items = (c.sectionOf k).items

theorem KeepsItems.get? (h : c.KeepsItems d) (x : Handle k) :
    (d.sectionOf k).get? x = (c.sectionOf k).get? x := by
  rw [Section.get?, Section.get?, h k]

theorem KeepsItems.keepsContent (h : c.KeepsItems d) : c.KeepsContent d := fun k _ => h k

theorem KeepsContent.get? (h : c.KeepsContent d) (hk : k.isSingleton = false) (x : Handle k) :
    (d.sectionOf k).get? x = (c.sectionOf k).get? x := by
  rw [Section.get?, Section.get?, h k hk]

theorem KeepsContent.get (h : c.KeepsContent d) (hk : k.isSingleton = false) (x : Handle k) :
    d.get x = c.get x := by
  rw [Container.get, Container.get, Section.get, Section.get, h.get? hk]

/-- One container comes from another one by reordering sections and moving items. -/
structure Rearranges (c d : Container) : Prop where
  items : c.KeepsItems d
  index : ∀ k, (d.sectionOf k).index = (c.sectionOf k).index
  order : ∀ k, (d.sectionOf k).order.toList.Perm (c.sectionOf k).order.toList
  wellFormed : c.SectionsWellFormed → d.SectionsWellFormed
  policy : d.policy = c.policy
  keepsSigned : d.keepsSigned = c.keepsSigned
  stage : d.stage = c.stage

theorem Rearranges.refl (c : Container) : c.Rearranges c :=
  ⟨fun _ => rfl, fun _ => rfl, fun _ => .refl _, id, rfl, rfl, rfl⟩

theorem Rearranges.trans {e : Container} (h : c.Rearranges d) (h' : d.Rearranges e) :
    c.Rearranges e :=
  ⟨fun k => (h'.items k).trans (h.items k), fun k => (h'.index k).trans (h.index k),
    fun k => (h'.order k).trans (h.order k), fun hc => h'.wellFormed (h.wellFormed hc),
    h'.policy.trans h.policy, h'.keepsSigned.trans h.keepsSigned, h'.stage.trans h.stage⟩

@[simp] theorem policy_modifySection (f : Section k → Section k) :
    (c.modifySection k f).policy = c.policy := by
  cases c
  rfl

@[simp] theorem keepsSigned_modifySection (f : Section k → Section k) :
    (c.modifySection k f).keepsSigned = c.keepsSigned := by
  cases c
  rfl

@[simp] theorem stage_modifySection (f : Section k → Section k) :
    (c.modifySection k f).stage = c.stage := by
  cases c
  rfl

theorem rearranges_modifySection {f : Section k → Section k}
    (hitems : (f (c.sectionOf k)).items = (c.sectionOf k).items)
    (hindex : (f (c.sectionOf k)).index = (c.sectionOf k).index)
    (horder : (f (c.sectionOf k)).order.toList.Perm (c.sectionOf k).order.toList)
    (hwf : (c.sectionOf k).WellFormed → (f (c.sectionOf k)).WellFormed) :
    c.Rearranges (c.modifySection k f) := by
  refine ⟨?_, ?_, ?_, fun hc => ?_, by simp, by simp, by simp⟩
  · exact forall_modifySection (P := fun j s => s.items = (c.sectionOf j).items) hitems
      fun _ _ => rfl
  · exact forall_modifySection (P := fun j s => s.index = (c.sectionOf j).index) hindex
      fun _ _ => rfl
  · exact forall_modifySection
      (P := fun j s => s.order.toList.Perm (c.sectionOf j).order.toList) horder fun _ _ => .refl _
  · exact forall_modifySection (P := fun _ s => s.WellFormed) (hwf (hc k)) fun j _ => hc j

theorem rearranges_applyLayout (l : Section.Layout) :
    c.Rearranges (c.modifySection k (·.applyLayout l)) :=
  rearranges_modifySection rfl rfl (.refl _) fun h => h.applyLayout l

theorem rearranges_placeSections (h : placeSections ks c start = .ok (d, finish)) :
    c.Rearranges d ∧ (∀ k, (d.sectionOf k).order = (c.sectionOf k).order) ∧
      ∀ k, k ∉ ks → d.sectionOf k = c.sectionOf k := by
  induction ks generalizing c start with
  | nil =>
    cases h
    exact ⟨.refl d, fun _ => rfl, fun _ _ => rfl⟩
  | cons k ks ih =>
    obtain ⟨sizes, -, h⟩ := placeSections_cons_eq_ok.1 h
    obtain ⟨hd, horder, hframe⟩ := ih h
    refine ⟨(rearranges_applyLayout _).trans hd, fun j => (horder j).trans ?_, fun j hj => ?_⟩
    · exact forall_modifySection (P := fun j s => s.order = (c.sectionOf j).order)
        (Section.order_applyLayout ..) (fun _ _ => rfl) j
    · rw [List.mem_cons, not_or] at hj
      rw [hframe j hj.2, sectionOf_modifySection_of_ne c _ hj.1]

theorem position?_congr {h : Handle k} (hk : d.sectionOf k = c.sectionOf k) :
    d.position? h = c.position? h := by
  rw [position?, position?, hk]

/-- When code does not move, the lengths that a layout finds on its way are those in the end. -/
theorem stacked_of_placeSections (hn : ks.Nodup) (hc : c.SectionsWellFormed)
    (h : placeSections ks c start = .ok (d, finish))
    (hm : (∀ k ∈ ks, k.isIndexed = true) ∨ c.places.MeasuresAlike d.places) :
    d.Stacked ks start finish := by
  induction ks generalizing c start with
  | nil =>
    cases h
    rfl
  | cons k ks ih =>
    obtain ⟨hk, hn⟩ := List.nodup_cons.1 hn
    obtain ⟨sizes, hsizes, h⟩ := placeSections_cons_eq_ok.1 h
    obtain ⟨-, -, hframe⟩ := rearranges_placeSections h
    have hsection : d.sectionOf k =
        (c.sectionOf k).applyLayout (Section.layoutOf k start sizes) := by
      rw [hframe k hk, sectionOf_modifySection_self]
    have hlength : (Section.layoutOf k start sizes).positions.size =
        (c.sectionOf k).order.size := by
      rw [Section.size_layoutOf, length_of_mapM hsizes, Array.length_toList]
    refine ⟨sizes, ?_, ?_, ih hn ((rearranges_applyLayout _).wellFormed hc) h ?_⟩
    · rw [hsection, ← hsizes]
      rcases hm with hm | hm
      · exact Section.sizes_congr_of_isIndexed (hm k (List.mem_cons_self ..)) rfl rfl
      · exact Section.sizes_congr rfl rfl hm
    · rw [hsection]
      exact Section.stands_applyLayout (hc k) hlength
    · refine hm.imp (fun hm j hj => hm j (List.mem_cons_of_mem _ hj)) fun hm j x hj => ?_
      by_cases hjk : j = k
      · subst hjk
        exact position?_congr (hframe j hk)
      · rw [hm j x hj]
        exact (position?_congr (sectionOf_modifySection_of_ne c _ hjk)).symm

theorem stacked_congr (h : c.Stacked ks start finish)
    (hsection : ∀ k ∈ ks, d.sectionOf k = c.sectionOf k)
    (hm : (∀ k ∈ ks, k.isIndexed = true) ∨ c.places.MeasuresAlike d.places) :
    d.Stacked ks start finish := by
  induction ks generalizing start with
  | nil => exact h
  | cons k ks ih =>
    obtain ⟨sizes, hsizes, hstands, h⟩ := h
    have hk := hsection k (List.mem_cons_self ..)
    refine ⟨sizes, ?_, hk ▸ hstands, ih h (fun j hj => hsection j (List.mem_cons_of_mem _ hj))
      (hm.imp (fun hm j hj => hm j (List.mem_cons_of_mem _ hj)) id)⟩
    rw [hk, ← hsizes]
    rcases hm with hm | hm
    · exact Section.sizes_congr_of_isIndexed (hm k (List.mem_cons_self ..)) rfl rfl
    · exact Section.sizes_congr rfl rfl hm

end Container

end DexContainer
