import DexContainer.Proofs.Container.Arrangement
import DexContainer.Proofs.Container.Interning
import DexContainer.Proofs.Container.Precedence
import DexContainer.Proofs.Container.Resorting
import DexContainer.Proofs.Container.Rounds
import DexContainer.Proofs.Container.Stability

/-! Laying out a container that has just been laid out. Nothing moves but the class definitions,
which are put into order once more: the definer of a type is the earliest of its definitions, and
the first ordering may have put another one in front. Main statements: `place_of_laidOut`, what a
second layout does; `place_of_place`, that it changes at most the order of the class definitions,
and not even that when all definitions of a type that is defined on a cycle reach the cycle; and
`exists_place_reordering`, that it may change it. -/

namespace DexContainer

namespace Section

variable {k : Kind} {s : Section k} {l l' : Layout} {places : Places}

theorem applyLayout_congr (hoffset : l.offset? = l'.offset?)
    (hpositions : l.positions = l'.positions) (hbyteSize : l.byteSize = l'.byteSize) :
    s.applyLayout l = s.applyLayout l' := by
  simp only [applyLayout, hoffset, hpositions, hbyteSize]

theorem replaceFirst_eq_self {x : Content k} (h : s.get? ⟨0⟩ = some x) : s.replaceFirst x = s := by
  cases s
  simp only [get?] at h
  obtain ⟨hlt, rfl⟩ := Array.getElem?_eq_some_iff.1 h
  simp only [replaceFirst, Array.setIfInBounds, hlt, dite_true, Array.set_getElem_self]

theorem positions_layoutOf_classDef (start : Nat) (sizes : List Nat) :
    (layoutOf .classDef start sizes).positions = Array.range sizes.length := by
  cases sizes with
  | nil => rfl
  | cons size sizes =>
    rw [← Array.toList_inj, Array.toList_range]
    rfl

/-- Entries of one length are measured alike in any order. -/
theorem sizes_reorder {width : Nat} {sizes order : List Nat} (hk : k.entrySize? = some width)
    (hsizes : s.sizes places = .ok sizes) (hperm : order.Perm s.order.toList) (places' : Places) :
    (s.reorder order.toArray).sizes places' = .ok sizes := by
  have hwidth : ∀ id ∈ s.order.toList, s.sizeOf places' id = .ok width := by
    intro id hid
    obtain ⟨size, hsize⟩ := exists_of_mapM_eq_ok hsizes hid
    obtain ⟨x, hx, -⟩ := bind_eq_ok.1 hsize
    rw [sizeOf, hx, ok_bind, Content.size_of_entrySize? hk]
  have hreplicate : sizes = List.replicate order.length width := by
    refine List.eq_replicate_iff.2 ⟨(length_of_mapM hsizes).trans hperm.length_eq.symm, ?_⟩
    exact fun size hsize => eq_width_of_mem_sizes hk hsizes hsize
  have hmap : (s.reorder order.toArray).sizes places' =
      order.mapM fun _ => (.ok width : Except Violation Nat) :=
    mapM_congr fun id hid => hwidth id (hperm.mem_iff.1 hid)
  rw [hmap, hreplicate, ← List.map_const', mapM_eq_ok, List.forall₂_map_right_iff,
    List.forall₂_same]
  exact fun _ _ => rfl

end Section

namespace Container

variable {c d : Container} {ks : List Kind} {start finish fileSize dataEnd : Nat} {order : List Nat}

/-! ### Class definitions in another order -/

/-- The class definitions in another order, which gives them their positions. -/
def reclassed (c : Container) (order : List Nat) : Container :=
  c.modifySection .classDef fun s => (s.reorder order.toArray).applyLayout
    { offset? := s.offset?, positions := Array.range order.length, next := 0,
      byteSize := s.byteSize }

theorem sectionOf_reclassed_of_ne {k : Kind} (hk : k ≠ .classDef) :
    (c.reclassed order).sectionOf k = c.sectionOf k :=
  sectionOf_modifySection_of_ne c _ hk

theorem keepsItems_reclassed (c : Container) (order : List Nat) :
    c.KeepsItems (c.reclassed order) :=
  keepsItems_modifySection rfl

theorem rearranges_reclassed (hperm : order.Perm (c.sectionOf .classDef).order.toList) :
    c.Rearranges (c.reclassed order) :=
  rearranges_modifySection rfl rfl hperm fun hwf => (hwf.reorder hperm).applyLayout _

/-- The positions of class definitions measure nothing. -/
theorem measuresAlike_reclassed (c : Container) (order : List Nat) :
    c.places.MeasuresAlike (c.reclassed order).places := by
  intro k h hk
  refine position?_congr (sectionOf_reclassed_of_ne ?_)
  rintro rfl
  cases hk

theorem modifySection_modifySection {k : Kind} {f g h : Section k → Section k}
    (heq : g (f (c.sectionOf k)) = h (c.sectionOf k)) :
    (c.modifySection k f).modifySection k g = c.modifySection k h := by
  obtain ⟨sections, _, _, _⟩ := c
  cases sections
  cases k <;> simp only [sectionOf, Sections.get] at heq <;>
    simp only [modifySection, Sections.modify, heq]

/-- Laying out the tables gives the class definitions their positions in the new order. -/
theorem placeSections_reorder (hn : ks.Nodup) (hks : ∀ k ∈ ks, k.isIndexed = true)
    (hmem : .classDef ∈ ks) (hwf : c.SectionsWellFormed) (h : c.Stacked ks start finish)
    (hperm : order.Perm (c.sectionOf .classDef).order.toList) :
    placeSections ks (c.modifySection .classDef (·.reorder order.toArray)) start =
      .ok (c.reclassed order, finish) := by
  induction ks generalizing start with
  | nil => exact absurd hmem List.not_mem_nil
  | cons k ks ih =>
    obtain ⟨hk, hn⟩ := List.nodup_cons.1 hn
    obtain ⟨hindexed, hindexeds⟩ := List.forall_mem_cons.1 hks
    obtain ⟨sizes, hsizes, hstands, h⟩ := h
    by_cases hkc : k = .classDef
    · subst hkc
      have hpositions : (Section.layoutOf .classDef start sizes).positions =
          Array.range order.length := by
        rw [Section.positions_layoutOf_classDef, length_of_mapM hsizes, hperm.length_eq]
      have hlayout : (c.modifySection .classDef (·.reorder order.toArray)).modifySection .classDef
          (·.applyLayout (Section.layoutOf .classDef start sizes)) = c.reclassed order :=
        modifySection_modifySection (Section.applyLayout_congr hstands.offset?.symm hpositions
          hstands.byteSize.symm)
      refine placeSections_cons_eq_ok.2 ⟨sizes, ?_, ?_⟩
      · rw [sectionOf_modifySection_self]
        exact Section.sizes_reorder rfl hsizes hperm _
      · rw [hlayout]
        refine placeSections_of_stacked ((rearranges_reclassed hperm).wellFormed hwf)
          (stacked_congr h (fun j hj => sectionOf_reclassed_of_ne ?_) (.inl hindexeds))
        rintro rfl
        exact hk hj
    · have hsection : (c.modifySection .classDef (·.reorder order.toArray)).sectionOf k =
          c.sectionOf k := sectionOf_modifySection_of_ne c _ hkc
      refine placeSections_cons_eq_ok.2 ⟨sizes, ?_, ?_⟩
      · rw [hsection, ← hsizes]
        exact Section.sizes_congr_of_isIndexed hindexed rfl rfl
      · rw [modifySection_eq_self (by rw [hsection, Section.applyLayout_eq_self (hwf k) hstands])]
        exact ih hn hindexeds ((List.mem_cons.1 hmem).resolve_left (Ne.symm hkc)) h

theorem reorder_self (c : Container) :
    c.modifySection .classDef (·.reorder (c.sectionOf .classDef).order.toList.toArray) = c :=
  modifySection_eq_self rfl

/-- Class definitions that stand in an order have their positions from it. -/
theorem reclassed_self (hwf : c.SectionsWellFormed) (hc : c.LaidOut dataEnd) :
    c.reclassed (c.sectionOf .classDef).order.toList = c := by
  have htables := hc.tables
  have hreorder := placeSections_reorder (by decide) (by decide) (by decide) hwf htables (.refl _)
  rw [reorder_self, placeSections_of_stacked hwf htables] at hreorder
  exact (congrArg Prod.fst (Except.ok.inj hreorder)).symm

/-! ### A first layout -/

theorem dependencyOrder_congr
    (horder : (d.sectionOf .classDef).order = (c.sectionOf .classDef).order)
    (hclasses : (d.sectionOf .classDef).items = (c.sectionOf .classDef).items)
    (hlists : (d.sectionOf .typeList).items = (c.sectionOf .typeList).items) :
    d.dependencyOrder = c.dependencyOrder := by
  have hdefiners (ids : List Nat) : d.definers ids = c.definers ids := by
    simp only [definers, Section.get?, hclasses]
  have hnode (m : Std.HashMap (Handle .typeId) Nat) : d.classNode m = c.classNode m :=
    funext fun _ => classNode_congr hclasses hlists fun _ => rfl
  simp only [dependencyOrder, horder, hdefiners, hnode]

/-- A layout puts the class definitions into dependency order, and the sortable sections into
canonical order, as far as the policy says so. -/
theorem orders_of_placeWithin {rounds : Nat} (hwf : c.SectionsWellFormed)
    (h : c.placeWithin rounds = .ok (d, fileSize)) :
    (c.policy.reordersClasses = true →
      c.dependencyOrder = .ok (d.sectionOf .classDef).order.toList) ∧
    (c.policy.reordersClasses = false →
      (d.sectionOf .classDef).order = (c.sectionOf .classDef).order) ∧
    (c.policy.sorts = true → ∀ k, k.isSortable = true → d.HoldsOrder k) := by
  obtain ⟨c1, c2, c3, c4, r1, h2, r3, h4, -, hitems, horder, hclasses, horder1, -⟩ :=
    exists_orders_of_placeWithin hwf h
  have hd : (d.sectionOf .classDef).order = (c2.sectionOf .classDef).order :=
    (horder _ rfl).trans hclasses
  have hpolicy : c3.policy = c.policy :=
    ((r1.trans (rearranges_orderClasses h2).1).trans r3).policy
  rw [orderClasses, r1.policy] at h2
  refine ⟨fun hr => ?_, fun hr => ?_, fun hs k hk => ?_⟩
  · rw [if_pos hr] at h2
    obtain ⟨order, hdependency, h2⟩ := bind_eq_ok.1 h2
    cases h2
    rw [dependencyOrder_congr (horder1 _) (r1.items _) (r1.items _)] at hdependency
    rw [hdependency, hd, sectionOf_modifySection_self]
    rfl
  · rw [hr] at h2
    cases h2
    rw [hd, horder1]
  · exact (holdsOrder_of_sortData (hpolicy ▸ hs) h4 hk).congr hitems hk
      (horder k (isSingleton_of_isSortable hk))

/-! ### Ordering class definitions again -/

/-- When the definer of a type reaches a cycle, so does every other definition of the type. -/
def HasSteadyDefiners (c : Container) : Prop :=
  ∀ t x y, c.IsDefiner t x → c.ReachesCycle x → y ∈ (c.sectionOf .classDef).order.toList →
    c.defines t y = true → c.ReachesCycle y

theorem HasDistinctClasses.hasSteadyDefiners (h : c.HasDistinctClasses) :
    c.HasSteadyDefiners := by
  intro t x y hx hcycle _ hy
  obtain ⟨a, ha, hat⟩ := defines_iff.1 (List.find?_some hx)
  obtain ⟨b, hb, hbt⟩ := defines_iff.1 hy
  cases h _ _ a b ha hb (hat.trans hbt.symm)
  exact hcycle

/-- The second container has the class definitions of the first one, in another order. -/
structure ReordersClasses (c d : Container) (ids : List Nat) : Prop where
  wellFormed : (c.sectionOf .classDef).WellFormed
  order : (d.sectionOf .classDef).order.toList = ids
  perm : ids.Perm (c.sectionOf .classDef).order.toList
  classes : (d.sectionOf .classDef).items = (c.sectionOf .classDef).items
  lists : (d.sectionOf .typeList).items = (c.sectionOf .typeList).items

variable {free left : List Nat} {x y : Nat} {t : Handle .typeId}

theorem ReordersClasses.defines (h : c.ReordersClasses d order) (t : Handle .typeId) :
    d.defines t = c.defines t := by
  funext id
  simp only [Container.defines, Section.get?, h.classes]

theorem ReordersClasses.inherits_iff (h : c.ReordersClasses d order) :
    d.Inherits x t ↔ c.Inherits x t := by
  simp only [Inherits, get, Section.get, Section.get?, h.classes, h.lists]

theorem ReachesCycle.exists_dependsOn (h : c.ReachesCycle x) :
    ∃ y, c.DependsOn x y ∧ c.ReachesCycle y := by
  obtain ⟨y, hxy, hy⟩ := h
  rcases Relation.ReflTransGen.cases_head hxy with rfl | ⟨z, hxz, hzy⟩
  · obtain ⟨z, hxz, hzx⟩ := Relation.TransGen.head'_iff.1 hy
    exact ⟨z, hxz, x, hzx, hy⟩
  · exact ⟨z, hxz, y, hzy, hy⟩

/-- A class definition that was emitted follows those that it depends on in the new order: the new
definer of a type stands in front of the old one. -/
theorem ReordersClasses.follows (h : c.ReordersClasses d (free ++ left))
    (hc : c.EmitsByDependency free left) {before after : List Nat}
    (hfree : free = before ++ x :: after) (hxy : d.DependsOn x y) : y ∈ before := by
  obtain ⟨hne, t, hinherits, hdefiner⟩ := hxy
  rw [h.inherits_iff] at hinherits
  rw [IsDefiner, h.order, h.defines] at hdefiner
  -- the old definer of the type stands in front of the class definition or is the same
  obtain ⟨w, hw, hdefines⟩ : ∃ w ∈ before ++ [x], c.defines t w = true := by
    have hmem := h.perm.mem_iff.1 (List.mem_of_find?_eq_some hdefiner)
    obtain ⟨z, hz⟩ := Option.isSome_iff_exists.1
      (List.find?_isSome.2 ⟨y, hmem, List.find?_some hdefiner⟩)
    refine ⟨z, ?_, List.find?_some hz⟩
    by_cases hzx : z = x
    · simp [hzx]
    · have hdepends := (hc.next before x after hfree).depends
      exact List.mem_append_left _ (hdepends z ⟨hzx, t, hinherits, hz⟩)
  have hsplit : free ++ left = (before ++ [x]) ++ (after ++ left) := by simp [hfree]
  obtain ⟨v, hv⟩ := Option.isSome_iff_exists.1 (List.find?_isSome.2 ⟨w, hw, hdefines⟩)
  rw [hsplit, List.find?_append, hv, Option.some_or] at hdefiner
  obtain rfl := Option.some.inj hdefiner
  have hmem := List.mem_of_find?_eq_some hv
  simpa [hne] using hmem

/-- A class definition that reaches a cycle depends, in the new order as well, on one that does. -/
theorem ReordersClasses.waits (h : c.ReordersClasses d (free ++ left))
    (hc : c.EmitsByDependency free left) (hsteady : c.HasSteadyDefiners) (hx : c.ReachesCycle x) :
    ∃ y, d.DependsOn x y ∧ y ∉ free := by
  have hnotMem {y : Nat} (hy : c.ReachesCycle y)
      (hmem : y ∈ (c.sectionOf .classDef).order.toList) : y ∉ free := fun hfree =>
    (hc.mem_free y (h.wellFormed.mem_order.1 hmem)).1 hfree hy
  obtain ⟨y, hxy, hy⟩ := hx.exists_dependsOn
  obtain ⟨hne, t, hinherits, hdefiner⟩ := hxy
  have hothers : ∀ z ∈ (c.sectionOf .classDef).order.toList, c.defines t z = true → z ∉ free :=
    fun z hz hdefines => hnotMem (hsteady t y z hdefiner hy hz hdefines) hz
  refine ⟨y, ⟨hne, t, h.inherits_iff.2 hinherits, ?_⟩,
    hnotMem hy (List.mem_of_find?_eq_some hdefiner)⟩
  have hnone : free.find? (c.defines t) = none := by
    refine List.find?_eq_none.2 fun z hz hdefines => ?_
    exact hothers z (h.perm.mem_iff.1 (List.mem_append_left _ hz)) hdefines hz
  rw [IsDefiner, h.order, h.defines, List.find?_append, hnone, Option.none_or, hc.left,
    List.find?_filter, ← hdefiner]
  refine List.find?_congr fun z hz => ?_
  cases hdefines : c.defines t z with
  | false => simp
  | true => simp [hothers z hz hdefines]

/-- The interfaces of class definitions that were put into order are known. -/
theorem knowsInterfaces_of_dependencyOrder (hwf : (c.sectionOf .classDef).WellFormed)
    (h : c.dependencyOrder = .ok order) : c.KnowsInterfaces := by
  intro z w i hw hi
  obtain ⟨nodes, hnodes, -⟩ := bind_eq_ok.1 h
  have hz : z.id ∈ (c.sectionOf .classDef).order.toList :=
    hwf.mem_order.2 (resolves_iff.1 ⟨w, hw⟩)
  obtain ⟨n, hn⟩ := exists_of_mapM_eq_ok hnodes hz
  obtain ⟨w', hw', hn⟩ := bind_eq_ok.1 hn
  obtain rfl := Option.some.inj (hw.symm.trans (Section.get_eq_ok.1 hw'))
  obtain ⟨types, htypes, -⟩ := bind_eq_ok.1 hn
  rw [dependencies, hi] at htypes
  obtain ⟨list, hlist, -⟩ := bind_eq_ok.1 htypes
  exact ⟨list, get_eq_ok.1 hlist⟩

/-- Class definitions that were put into order can be put into order again, and keep their order
when their definers are steady. -/
theorem ReordersClasses.dependencyOrder (h : c.ReordersClasses d order)
    (hc : c.dependencyOrder = .ok order) (hwf : (d.sectionOf .classDef).WellFormed) :
    (∃ again, d.dependencyOrder = .ok again) ∧
      (c.HasSteadyDefiners → d.dependencyOrder = .ok order) := by
  have hlists := knowsInterfaces_of_dependencyOrder h.wellFormed hc
  have hlists' : d.KnowsInterfaces := by
    intro z w i hw hi
    rw [Section.get?, h.classes] at hw
    have := hlists z w i hw hi
    rwa [Resolves, Section.get?, h.lists]
  obtain ⟨free', left', hagain, -⟩ := exists_emitsByDependency hwf hlists'
  refine ⟨⟨_, hagain⟩, fun hsteady => ?_⟩
  obtain ⟨free, left, hparts, hemits⟩ := exists_emitsByDependency h.wellFormed hlists
  obtain rfl := Except.ok.inj (hc.symm.trans hparts)
  refine dependencyOrder_eq_self hwf hlists' h.order
    (fun before x after hsplit y hxy => h.follows hemits hsplit hxy) fun x hx => ?_
  refine h.waits hemits hsteady ?_
  by_contra hcycle
  have hmem := h.wellFormed.mem_order.1 (h.perm.mem_iff.1 (List.mem_append_right _ hx))
  rw [hemits.left] at hx
  simpa [(hemits.mem_free x hmem).2 hcycle] using (List.mem_filter.1 hx).2

/-! ### A second layout -/

section Reclassed

variable (c : Container) (order : List Nat)

theorem map_reclassed : (c.reclassed order).map = c.map := by
  simp only [map, Section.get?, keepsItems_reclassed c order .mapList]

/-- The map names the same sections, with the same offsets. -/
theorem mapEntries_reclassed (mapOffset : Nat) :
    (c.reclassed order).mapEntries mapOffset = c.mapEntries mapOffset := by
  refine mapEntries_congr (fun k _ => ?_) mapOffset
  by_cases hk : k = .classDef
  · subst hk
    rw [reclassed, sectionOf_modifySection_self]
    exact ⟨rfl, rfl, rfl⟩
  · rw [sectionOf_reclassed_of_ne hk]
    exact ⟨rfl, rfl, rfl⟩

/-- The other sections stand where they stood. -/
theorem stacked_reclassed (hks : .classDef ∉ ks) (h : c.Stacked ks start finish) :
    (c.reclassed order).Stacked ks start finish :=
  stacked_congr h (fun _ hk => sectionOf_reclassed_of_ne (ne_of_mem_of_not_mem hk hks))
    (.inr (measuresAlike_reclassed c order))

end Reclassed

/-- A layout of a container that stands as it was laid out moves nothing but the class
definitions. -/
theorem place_of_laidOut (hwf : c.SectionsWellFormed) (hs : c.HasSingletons)
    (hc : c.LaidOut dataEnd) (hstage : c.stage = .placed)
    (hperm : order.Perm (c.sectionOf .classDef).order.toList)
    (hclasses : c.orderClasses =
      .ok (c.modifySection .classDef (·.reorder order.toArray)))
    (hsorted : c.policy.sorts = true → ∀ k, k.isSortable = true → c.HoldsOrder k) (rounds : Nat) :
    c.placeWithin (rounds + 1) = .ok (c.reclassed order, c.header.fileSize) := by
  have hr := rearranges_reclassed hperm
  have hwfd := hr.wellFormed hwf
  have hsingletons := hr.items.singletons hs
  obtain ⟨sizes, hsizes, hstands, htables⟩ := hc.tables
  have hfirst : c.Stacked [.header] 0 (Section.layoutOf .header 0 sizes).next :=
    ⟨sizes, hsizes, hstands, rfl⟩
  have hdata := stacked_reclassed c order (by decide) hc.data
  have hlast := stacked_reclassed c order (by decide) hc.map
  have hsortData : (c.reclassed order).sortData = .ok (c.reclassed order) := by
    refine sortData_of_holdsOrder fun hsorts k hk => ?_
    refine (hsorted (hr.policy ▸ hsorts) k hk).congr hr.items.keepsContent hk ?_
    rw [sectionOf_reclassed_of_ne (by rintro rfl; cases hk)]
  have hsettle : settle c.header.dataOffset (rounds + 1) (c.reclassed order) =
      .ok (c.reclassed order, dataEnd) := by
    rw [settle, placeData, placeSections_of_stacked hwfd hdata, ok_bind]
    exact if_pos rfl
  have hself : (c.reclassed order).modifySection .mapList
      (·.replaceFirst ⟨(c.reclassed order).mapEntries c.header.mapOffset⟩) = c.reclassed order := by
    refine modifySection_eq_self (Section.replaceFirst_eq_self ?_)
    rw [hsingletons.get?_map, map_reclassed, mapEntries_reclassed, ← hc.entries]
  have hstamp : (c.reclassed order).stampHeader c.header.dataOffset c.header.mapOffset
      c.header.fileSize = c.reclassed order := by
    rw [stampHeader]
    refine modifySection_eq_self (Section.replaceFirst_eq_self ?_)
    rw [hsingletons.get?_header, header_congr (hr.items _), ← hc.dataSize]
  refine placeWithin_eq_ok.2 ⟨c, _, _, _, _, _, _, dataEnd, c.reclassed order,
    placeSections_of_stacked hwf hfirst, hclasses,
    placeSections_reorder (by decide) (by decide) (by decide) hwf htables hperm, hsortData, hsettle,
    ?_, ?_⟩
  · rw [← hc.mapOffset, hself, ← placeSections_singleton]
    exact placeSections_of_stacked hwfd hlast
  · rw [← hc.mapOffset, hstamp, ← hr.stage.trans hstage]

/-- What a second layout keeps: everything but the order and the positions of the class
definitions. -/
structure KeepsPlaces (c d : Container) : Prop where
  sections : ∀ k, k ≠ .classDef → d.sectionOf k = c.sectionOf k
  classes : (d.sectionOf .classDef).items = (c.sectionOf .classDef).items
  index : (d.sectionOf .classDef).index = (c.sectionOf .classDef).index
  order : (d.sectionOf .classDef).order.toList.Perm (c.sectionOf .classDef).order.toList
  offset? : (d.sectionOf .classDef).offset? = (c.sectionOf .classDef).offset?
  byteSize : (d.sectionOf .classDef).byteSize = (c.sectionOf .classDef).byteSize
  header : d.header = c.header
  map : d.map = c.map
  policy : d.policy = c.policy
  keepsSigned : d.keepsSigned = c.keepsSigned
  stage : d.stage = c.stage

theorem keepsPlaces_reclassed (hperm : order.Perm (c.sectionOf .classDef).order.toList) :
    c.KeepsPlaces (c.reclassed order) := by
  have hr := rearranges_reclassed hperm
  refine ⟨fun k hk => sectionOf_reclassed_of_ne hk, hr.items _, hr.index _, hr.order _, ?_, ?_,
    header_congr (hr.items _), map_reclassed c order, hr.policy, hr.keepsSigned, hr.stage⟩
  · rw [reclassed, sectionOf_modifySection_self]
    rfl
  · rw [reclassed, sectionOf_modifySection_self]
    rfl

/-- A layout of a container that has just been laid out gives the class definitions another order,
or the same one when the policy keeps it or the definers are steady. -/
theorem exists_place_reclassed (hc : c.Reachable) (h : c.place = .ok (d, fileSize)) :
    ∃ order : List Nat, order.Perm (d.sectionOf .classDef).order.toList ∧
      d.place = .ok (d.reclassed order, fileSize) ∧
      ((c.policy.reordersClasses = true → c.HasSteadyDefiners) →
        order = (d.sectionOf .classDef).order.toList) := by
  have hwf := hc.coherent.wellFormed
  obtain ⟨hlays, rfl, dataEnd, hlaid⟩ := laidOut_of_placeWithin hwf hc.coherent.singletons h
  obtain ⟨hclasses, -, hsorted⟩ := orders_of_placeWithin hwf h
  have hwfd := hlays.wellFormed
  have hagain {order : List Nat} (hperm : order.Perm (d.sectionOf .classDef).order.toList)
      (hordered : d.orderClasses = .ok (d.modifySection .classDef (·.reorder order.toArray))) :
      d.place = .ok (d.reclassed order, d.header.fileSize) :=
    place_of_laidOut hwfd hlays.singletons hlaid hlays.stage hperm hordered
      (fun hs => hsorted (hlays.policy ▸ hs)) 15
  rw [← hlays.policy] at hclasses ⊢
  cases hr : d.policy.reordersClasses with
  | false =>
    refine ⟨(d.sectionOf .classDef).order.toList, .refl _, hagain (.refl _) ?_, fun _ => rfl⟩
    rw [orderClasses, hr, reorder_self]
    rfl
  | true =>
    have hreorders : c.ReordersClasses d (d.sectionOf .classDef).order.toList :=
      ⟨hwf _, rfl, hlays.order _, hlays.items _ rfl, hlays.items _ rfl⟩
    obtain ⟨⟨order, horder⟩, hsame⟩ := hreorders.dependencyOrder (hclasses hr) (hwfd _)
    refine ⟨order, dependencyOrder_perm horder, hagain (dependencyOrder_perm horder) ?_,
      fun hsteady => ?_⟩
    · rw [orderClasses, if_pos hr, horder]
      rfl
    · exact Except.ok.inj (horder.symm.trans (hsame (hsteady rfl)))

/-- Laying out a container that has just been laid out tells the same length and changes at most the
order of the class definitions. It changes nothing when the policy keeps their order, or when all
definitions of a type reach a cycle as soon as its definer does. -/
theorem place_of_place (hc : c.Reachable) (h : c.place = .ok (d, fileSize)) :
    ∃ e, d.place = .ok (e, fileSize) ∧ d.KeepsPlaces e ∧
      ((c.policy.reordersClasses = true → c.HasSteadyDefiners) → e = d) := by
  obtain ⟨order, hperm, hplace, hsame⟩ := exists_place_reclassed hc h
  refine ⟨d.reclassed order, hplace, keepsPlaces_reclassed hperm, fun hsteady => ?_⟩
  have hwf := hc.coherent.wellFormed
  obtain ⟨hlays, -, dataEnd, hlaid⟩ := laidOut_of_placeWithin hwf hc.coherent.singletons h
  rw [hsame hsteady, reclassed_self hlays.wellFormed hlaid]

/-! ### Class definitions that are ordered twice -/

theorem closed_of_withCycle {third : String} (h : withCycle third = .ok c) : c.Closed := by
  obtain ⟨⟨c1, a⟩, h1, h⟩ := bind_eq_ok.1 h
  obtain ⟨⟨c2, b⟩, h2, h⟩ := bind_eq_ok.1 h
  obtain ⟨⟨c3, t⟩, h3, h⟩ := bind_eq_ok.1 h
  obtain ⟨⟨c4, _⟩, h4, h⟩ := bind_eq_ok.1 h
  obtain ⟨⟨c5, _⟩, h5, h⟩ := bind_eq_ok.1 h
  obtain ⟨⟨c6, _⟩, h6, h⟩ := bind_eq_ok.1 h
  cases h
  have hempty : (empty {}).Reachable := .empty {}
  have hreachable := hempty.internType h1
  obtain ⟨hclosed1, ha⟩ := (closed_empty {}).internType hempty h1
  obtain ⟨hclosed2, hb⟩ := hclosed1.internType hreachable h2
  obtain ⟨hclosed3, ht⟩ := hclosed2.internType (hreachable.internType h2) h3
  have ha := (ha.internType h2).internType h3
  have hb := hb.internType h3
  have hclosed4 := hclosed3.intern h4 (ClassDef.each_handles.2 (by simp [ha, hb]))
  have hclosed5 := hclosed4.intern h5
    (ClassDef.each_handles.2 (by simp [ha.intern h4, hb.intern h4]))
  exact hclosed5.intern h6 (ClassDef.each_handles.2 (by simp [(ht.intern h4).intern h5]))

/-- The first layout puts the third definition in front of the two that extend each other. -/
theorem exists_place_of_withCycle {third : String} {t : Nat}
    (h : (fun c => ((c.sectionOf .classDef).items, (c.sectionOf .classDef).order,
      (c.sectionOf .code).items.size, c.policy.reordersClasses)) <$> withCycle third =
        .ok (cyclicClasses t, #[0, 1, 2], 0, true)) :
    ∃ c d fileSize, withCycle third = .ok c ∧ c.Reachable ∧ c.policy.reordersClasses = true ∧
      (c.sectionOf .classDef).items = cyclicClasses t ∧ c.place = .ok (d, fileSize) ∧
      (d.sectionOf .classDef).order = #[2, 0, 1] := by
  obtain ⟨c, hc, heq⟩ := map_eq_ok.1 h
  simp only [Prod.mk.injEq] at heq
  obtain ⟨hitems, horder, hcode, hpolicy⟩ := heq
  have hreachable := reachable_of_withCycle hc
  have hwf := hreachable.coherent.wellFormed
  obtain ⟨d, fileSize, hd⟩ := exists_place_of_codeless hwf (closed_of_withCycle hc) hcode
  have hfirst := (orders_of_placeWithin hwf hd).1 hpolicy
  rw [dependencyOrder_of_cyclicClasses hitems horder] at hfirst
  exact ⟨c, d, fileSize, hc, hreachable, hpolicy, hitems, hd,
    Array.toList_inj.1 (Except.ok.inj hfirst).symm⟩

theorem hasDistinctClasses_of_cyclicClasses
    (hitems : (c.sectionOf .classDef).items = cyclicClasses 2) : c.HasDistinctClasses := by
  have hdistinct : ∀ i j : Fin (cyclicClasses 2).size,
      (cyclicClasses 2)[i].type = (cyclicClasses 2)[j].type → i = j := by
    decide
  rintro ⟨i⟩ ⟨j⟩ x y hx hy hxy
  rw [Section.get?, hitems] at hx hy
  obtain ⟨hi, rfl⟩ := Array.getElem?_eq_some_iff.1 hx
  obtain ⟨hj, rfl⟩ := Array.getElem?_eq_some_iff.1 hy
  exact congrArg Handle.mk (Fin.mk.inj (hdistinct ⟨i, hi⟩ ⟨j, hj⟩ hxy))

theorem place_of_place_cycle : ∃ c d e fileSize, withCycle "LC;" = .ok c ∧
    c.place = .ok (d, fileSize) ∧ (d.sectionOf .classDef).order = #[2, 0, 1] ∧
    d.place = .ok (e, fileSize) ∧ d.KeepsPlaces e ∧ c.HasSteadyDefiners ∧ e = d := by
  obtain ⟨c, d, fileSize, hc, hreachable, -, hitems, hd, hfirst⟩ :=
    @exists_place_of_withCycle "LC;" 2 (by cbv)
  obtain ⟨e, he, hkeeps, hsame⟩ := place_of_place hreachable hd
  have hsteady := (hasDistinctClasses_of_cyclicClasses hitems).hasSteadyDefiners
  exact ⟨c, d, e, fileSize, hc, hd, hfirst, he, hkeeps, hsteady, hsame fun _ => hsteady⟩

/-- A second layout may put the class definitions into yet another order. The first puts the second
definition of `LA;` in front, which makes it the definer of the type, so that `LB;` no longer
depends on the definition that depends on it. -/
theorem exists_place_reordering : ∃ c d e fileSize, twiceDefined = .ok c ∧ c.Reachable ∧
    c.place = .ok (d, fileSize) ∧ d.place = .ok (e, fileSize) ∧
    (d.sectionOf .classDef).order = #[2, 0, 1] ∧ (e.sectionOf .classDef).order = #[2, 1, 0] := by
  obtain ⟨c, d, fileSize, hc, hreachable, hpolicy, hclasses, hd, hfirst⟩ :=
    @exists_place_of_withCycle "LA;" 0 (by cbv)
  obtain ⟨order, -, he, -⟩ := exists_place_reclassed hreachable hd
  obtain ⟨hlays, -⟩ := laidOut_of_placeWithin hreachable.coherent.wellFormed
    hreachable.coherent.singletons hd
  have hitems : (d.sectionOf .classDef).items = cyclicClasses 0 :=
    (hlays.items _ rfl).trans hclasses
  have hsecond : d.dependencyOrder = .ok [2, 1, 0] := by
    have hnodes : [2, 0, 1].mapM (d.classNode (d.definers [2, 0, 1])) =
        .ok [⟨2, []⟩, ⟨0, [1]⟩, ⟨1, [2]⟩] := by
      simp [classNode, dependencies, getElem?_definers, defines, Section.get, Section.get?, hitems,
        cyclicClasses]
    simp only [dependencyOrder, hfirst, hnodes]
    decide
  refine ⟨c, d, _, fileSize, hc, hreachable, hd, he, hfirst, ?_⟩
  have := (orders_of_placeWithin hlays.wellFormed he).1 (hlays.policy ▸ hpolicy)
  rw [hsecond] at this
  exact Array.toList_inj.1 (Except.ok.inj this).symm

end Container

end DexContainer
