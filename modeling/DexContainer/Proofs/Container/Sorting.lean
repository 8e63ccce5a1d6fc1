import DexContainer.Proofs.Container.Copying

/-! The canonical order is stable. Keys are ordered totally, so a section that was sorted by its
keys stays as it is when it is sorted again. Main statements: `of_sortData`, what holds of a section
once all are sorted; `isSorted_of_sortData`, what sorting leads to; and `sortData_of_isSorted`,
sorting once more changes nothing. -/

namespace DexContainer

namespace Canonical

instance : Std.TransCmp Key.compare :=
  inferInstanceAs (Std.TransCmp (compareLex (compareOn Key.rank) (compareOn Key.texts)))

/-- The order of keys, as sorting asks for it. -/
def precedes (a b : Nat × Key) : Bool := (Key.compare a.2 b.2).isLE

theorem precedes_trans (a b c : Nat × Key) (hab : precedes a b = true) (hbc : precedes b c = true) :
    precedes a c = true :=
  Std.TransCmp.isLE_trans hab hbc

theorem precedes_total (a b : Nat × Key) : (precedes a b || precedes b a) = true := by
  have hswap : Key.compare a.2 b.2 = (Key.compare b.2 a.2).swap := Std.OrientedCmp.eq_swap
  rw [precedes, precedes, hswap]
  cases Key.compare b.2 a.2 <;> rfl

end Canonical

namespace Container

variable {c d g : Container} {k : Kind} {ks : List Kind} {ρ : Renaming}

/-- The section stands in canonical order. -/
def IsSorted (c : Container) (k : Kind) : Prop :=
  ∃ items, (c.sectionOf k).order.toList.mapM (c.keyed k) = .ok items ∧
    items.Pairwise fun a b => Canonical.precedes a b = true

theorem map_fst_of_keyed {ids : List Nat} {items : List (Nat × Canonical.Key)}
    (h : ids.mapM (c.keyed k) = .ok items) : items.map (·.1) = ids := by
  have hids := map_fst_of_mapM (p := id) h fun id x hx => by
    obtain ⟨_, -, -, hid⟩ := keyed_eq_ok.1 hx
    exact hid
  rwa [List.map_id] at hids

theorem sectionOf_sortSection_of_ne {j : Kind} (h : c.sortSection k = .ok d) (hj : j ≠ k) :
    d.sectionOf j = c.sectionOf j := by
  rw [sortSection] at h
  split at h
  · obtain ⟨order, -, h⟩ := bind_eq_ok.1 h
    cases h
    exact sectionOf_modifySection_of_ne c _ hj
  · cases h
    rfl

theorem isSingleton_of_isSortable (hk : k.isSortable = true) : k.isSingleton = false := by
  cases k <;> first | rfl | exact absurd hk (by decide)

theorem mem_dataOrder_of_isSortable (hk : k.isSortable = true) : k ∈ Kind.dataOrder := by
  cases k <;> first | decide | exact absurd hk (by decide)

/-- The key of an item depends on what the items hold, not on where they stand. -/
theorem descriptorKey_congr (h : c.KeepsContent d) (t : Handle .typeId) :
    d.descriptorKey t = c.descriptorKey t := by
  simp only [descriptorKey, descriptor, text, h.get (k := .typeId) rfl, h.get (k := .stringId) rfl,
    h.get (k := .stringData) rfl]

theorem withContent_congr (h : c.KeepsContent d) (hk : k.isSortable = true) :
    d.withContent k = c.withContent k := by
  funext id
  simp only [withContent, h.get (isSingleton_of_isSortable hk)]

theorem withKey_congr (h : c.KeepsContent d) : d.withKey k = c.withKey k := by
  have hkey (x : Content k) : d.canonicalKey k x = c.canonicalKey k x := by
    cases k <;> simp only [canonicalKey, funext (descriptorKey_congr h)]
  exact funext fun x => by simp only [withKey, hkey]

theorem keyed_congr (h : c.KeepsContent d) (hk : k.isSortable = true) (id : Nat) :
    d.keyed k id = c.keyed k id := by
  simp only [keyed, withContent_congr h hk, withKey_congr h]

theorem IsSorted.congr (h : c.IsSorted k) (hk : k.isSortable = true) (hitems : c.KeepsContent d)
    (horder : (d.sectionOf k).order = (c.sectionOf k).order) : d.IsSorted k := by
  obtain ⟨items, hkeyed, hsorted⟩ := h
  refine ⟨items, ?_, hsorted⟩
  rw [horder, ← hkeyed]
  exact mapM_congr fun id _ => keyed_congr hitems hk id

/-! ### Sorting -/

/-- A section whose items all have a key is sorted by their keys. -/
theorem isSorted_of_keyed {keyed : List (Nat × Canonical.Key)} (hk : k.isSortable = true)
    (h : (c.sectionOf k).order.toList.mapM (c.keyed k) = .ok keyed) (hitems : c.KeepsContent d)
    (horder : (d.sectionOf k).order =
      ((keyed.mergeSort Canonical.precedes).map (·.1)).toArray) : d.IsSorted k := by
  refine ⟨keyed.mergeSort Canonical.precedes, ?_,
    List.pairwise_mergeSort Canonical.precedes_trans Canonical.precedes_total keyed⟩
  rw [horder, List.toList_toArray, mapM_map]
  refine mapM_eq_ok.2 (List.forall₂_same.2 fun x hx => ?_)
  obtain ⟨id, -, hid⟩ := exists_of_mem_mapM h ((List.mergeSort_perm ..).mem_iff.1 hx)
  obtain ⟨-, -, -, rfl⟩ := keyed_eq_ok.1 hid
  rw [keyed_congr hitems hk, hid]

theorem isSorted_of_sortSection (hwf : c.SectionsWellFormed) (hc : c.Closed)
    (hk : k.isSortable = true) (h : c.sortSection k = .ok d) : d.IsSorted k := by
  have hkeeps := (rearranges_sortSection h).1.items.keepsContent
  obtain ⟨items, hitems⟩ := exists_keyed hwf hc k
  rw [sortSection, if_pos hk, canonicalOrder_of_keyed hitems, ok_bind] at h
  cases h
  refine isSorted_of_keyed hk hitems hkeeps ?_
  rw [sectionOf_modifySection_self]
  rfl

/-- Sorting one section leaves the others in the order in which they stand. -/
theorem IsSorted.sortSection {j : Kind} (hc : c.IsSorted k) (hk : k.isSortable = true) (hj : j ≠ k)
    (h : c.sortSection j = .ok d) : d.IsSorted k :=
  hc.congr hk (rearranges_sortSection h).1.items.keepsContent
    (by rw [sectionOf_sortSection_of_ne h hj.symm])

/-- What sorting a section leads to, and sorting another one keeps, holds once all are sorted. -/
theorem of_sortData {invariant sorted : Container → Prop} (hk : k.isSortable = true)
    (hsorts : c.policy.sorts = true)
    (hkeeps : ∀ {c d j}, invariant c → j ≠ k → c.sortSection j = .ok d → invariant d)
    (hself : ∀ {c d}, invariant c → c.sortSection k = .ok d → sorted d)
    (hother : ∀ {c d j}, sorted c → j ≠ k → c.sortSection j = .ok d → sorted d)
    (hc : invariant c) (h : c.sortData = .ok d) : sorted d := by
  rw [sortData, if_pos hsorts] at h
  have hstage : k ∈ Kind.dataOrder ∧ invariant c ∨ k ∉ Kind.dataOrder ∧ sorted c :=
    .inl ⟨mem_dataOrder_of_isSortable hk, hc⟩
  have hn : Kind.dataOrder.Nodup := by decide
  clear hsorts hc
  generalize Kind.dataOrder = ks at h hstage hn
  induction ks generalizing c with
  | nil =>
    cases h
    simpa using hstage
  | cons j ks ih =>
    rw [List.foldlM_cons] at h
    obtain ⟨e, he, h⟩ := bind_eq_ok.1 h
    obtain ⟨hj, hn⟩ := List.nodup_cons.1 hn
    refine ih h ?_ hn
    rcases hstage with ⟨hmem, hc⟩ | ⟨hmem, hc⟩
    · rcases List.mem_cons.1 hmem with rfl | hmem
      · exact .inr ⟨hj, hself hc he⟩
      · exact .inl ⟨hmem, hkeeps hc (by rintro rfl; exact hj hmem) he⟩
    · rw [List.mem_cons, not_or] at hmem
      exact .inr ⟨hmem.2, hother hc (Ne.symm hmem.1) he⟩

theorem isSorted_of_sortData (hwf : c.SectionsWellFormed) (hc : c.Closed)
    (hsorts : c.policy.sorts = true) (h : c.sortData = .ok d) (hk : k.isSortable = true) :
    d.IsSorted k := by
  have hkeeps {c d : Container} {j : Kind} (hc : c.SectionsWellFormed ∧ c.Closed) (_ : j ≠ k)
      (h : c.sortSection j = .ok d) : d.SectionsWellFormed ∧ d.Closed := by
    obtain ⟨hrearranges, -⟩ := rearranges_sortSection h
    exact ⟨hrearranges.wellFormed hc.1, hrearranges.items.closed hc.2⟩
  have hself {c d : Container} (hc : c.SectionsWellFormed ∧ c.Closed)
      (h : c.sortSection k = .ok d) : d.IsSorted k := isSorted_of_sortSection hc.1 hc.2 hk h
  exact of_sortData hk hsorts hkeeps hself (fun hc => hc.sortSection hk) ⟨hwf, hc⟩ h

/-- The section stands in the order that sorting gives it. -/
def HoldsOrder (c : Container) (k : Kind) : Prop :=
  c.canonicalOrder k = .ok (c.sectionOf k).order.toList

theorem IsSorted.holdsOrder (h : c.IsSorted k) : c.HoldsOrder k := by
  obtain ⟨items, hitems, hsorted⟩ := h
  have hself : (items.mergeSort fun a b => (Canonical.Key.compare a.2 b.2).isLE) = items :=
    List.mergeSort_of_pairwise hsorted
  rw [HoldsOrder, canonicalOrder_of_keyed hitems, hself, map_fst_of_keyed hitems]

/-- Sorting a section that stands in the order it would get changes nothing. -/
theorem sortSection_of_holdsOrder (h : k.isSortable = true → c.HoldsOrder k) :
    c.sortSection k = .ok c := by
  rw [sortSection]
  split
  · rename_i hk
    rw [h hk, ok_bind]
    exact congrArg Except.ok (modifySection_eq_self
      (f := (·.reorder (c.sectionOf k).order.toList.toArray)) rfl)
  · rfl

theorem sortData_of_holdsOrder
    (h : c.policy.sorts = true → ∀ k, k.isSortable = true → c.HoldsOrder k) :
    c.sortData = .ok c := by
  rw [sortData]
  split
  · rename_i hs
    generalize Kind.dataOrder = ks
    induction ks with
    | nil => rfl
    | cons k ks ih => rw [List.foldlM_cons, sortSection_of_holdsOrder (h hs k), ok_bind, ih]
  · rfl

theorem sortData_of_isSorted (h : ∀ k, k.isSortable = true → c.IsSorted k) :
    c.sortData = .ok c :=
  sortData_of_holdsOrder fun _ k hk => (h k hk).holdsOrder

/-! ### Copies -/

theorem IsCopy.text {x : Handle .stringId} (h : c.IsCopy ρ g) (hx : c.Resolves _ x) :
    g.text (ρ _ x) = c.text x := by
  obtain ⟨y, hy⟩ := hx
  have hdata := h.closed _ _ y hy
  simp only [Content.handles, StringId.handles, each_cons, each_nil, and_true] at hdata
  obtain ⟨z, hz⟩ := hdata
  have hy' : g.get (ρ _ x) = .ok (StringId.rename ρ y) := get_eq_ok.2 (h.get? hy)
  have hz' : g.get (ρ _ (StringId.data y)) = .ok z := get_eq_ok.2 (h.get? hz)
  simp only [Container.text, get_eq_ok.2 hy, get_eq_ok.2 hz, hy', ok_bind, StringId.rename, hz']

theorem IsCopy.descriptorKey {x : Handle .typeId} (h : c.IsCopy ρ g) (hx : c.Resolves _ x) :
    g.descriptorKey (ρ _ x) = c.descriptorKey x := by
  obtain ⟨y, hy⟩ := hx
  have hdescriptor := h.closed _ _ y hy
  simp only [Content.handles, TypeId.handles, each_cons, each_nil, and_true] at hdescriptor
  have hy' : g.get (ρ _ x) = .ok (TypeId.rename ρ y) := get_eq_ok.2 (h.get? hy)
  simp only [Container.descriptorKey, descriptor, get_eq_ok.2 hy, hy', ok_bind, TypeId.rename,
    h.text hdescriptor]

/-- Copies of items compare as the items do. -/
theorem IsCopy.canonicalKey {x : Content k} (h : c.IsCopy ρ g)
    (hx : Each c.Resolves (Content.handles k x)) (hk : k.isSortable = true) :
    g.canonicalKey k (Content.rename ρ k (Content.asRead true k x)) = c.canonicalKey k x := by
  cases k <;> try exact absurd hk (by decide)
  case stringData => rfl
  case typeList =>
    simp only [Content.handles, TypeList.handles, each_map] at hx
    have hkeys : ((TypeList.types x).map (ρ _)).mapM g.descriptorKey =
        (TypeList.types x).mapM c.descriptorKey := by
      rw [mapM_map]
      exact mapM_congr fun t ht => h.descriptorKey (hx t ht)
    simp only [Container.canonicalKey, Content.rename, Content.asRead, TypeList.rename, hkeys]
  case annotationItem =>
    have htype : c.Resolves _ (AnnotationBody.type (AnnotationItem.body x)) :=
      (AnnotationBody.each_handles.1 hx).1
    obtain ⟨visibility, type, elements⟩ := x
    simp only [Container.canonicalKey, Content.rename, Content.asRead, AnnotationItem.rename,
      AnnotationBody.rename, h.descriptorKey htype]

theorem IsSorted.copy (h : c.IsCopy ρ g) (hk : k.isSortable = true) (hc : c.IsSorted k) :
    g.IsSorted k := by
  obtain ⟨items, hkeyed, hsorted⟩ := hc
  refine ⟨items.map fun x => ((ρ k ⟨x.1⟩).id, x.2), ?_, by rwa [List.pairwise_map]⟩
  rw [(h.sections k).order, mapM_map]
  refine mapM_eq_ok.2 (List.forall₂_map_right_iff.2 ?_)
  refine (mapM_eq_ok.1 hkeyed).imp fun id x hx => ?_
  obtain ⟨y, hy, hkey, rfl⟩ := keyed_eq_ok.1 hx
  have hcopy := h.canonicalKey (h.closed _ _ y hy) hk
  exact keyed_eq_ok.2 ⟨_, h.get? hy, hcopy.trans hkey, rfl⟩

end Container

end DexContainer
