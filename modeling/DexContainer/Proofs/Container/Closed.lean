import DexContainer.Proofs.Container.Coherence

/-! Containers in which no handle leads nowhere. Main statements: `exists_dependencyOrder` and
`exists_canonicalOrder`, the class definitions and every data section of such a container can be
put into order; and `KeepsItems.closed`, reordering leaves every handle valid. -/

namespace DexContainer.Container

variable {c d : Container} {k : Kind}

/-- The handle leads to an item. -/
def Resolves (c : Container) : HandleProperty := fun k h => ∃ x, (c.sectionOf k).get? h = some x

/-- Every handle in an item leads to an item. -/
def Closed (c : Container) : Prop :=
  ∀ (k : Kind) (h : Handle k) (x : Content k), (c.sectionOf k).get? h = some x →
    Each c.Resolves (Content.handles k x)

theorem resolves_iff {h : Handle k} : c.Resolves k h ↔ h.id < (c.sectionOf k).items.size := by
  simp only [Resolves, Section.get?, Array.getElem?_eq_some_iff]
  constructor
  · rintro ⟨_, hlt, _⟩
    exact hlt
  · intro hlt
    exact ⟨_, hlt, rfl⟩

theorem get_eq_ok {h : Handle k} {x : Content k} :
    c.get h = .ok x ↔ (c.sectionOf k).get? h = some x :=
  Section.get_eq_ok

theorem closed_empty (o : Options) : (empty o).Closed := by
  intro k h x hx
  cases k with
  | header => exact each_nil
  | mapList => exact each_nil
  | _ => cases hx

/-! ### Reordering and laying out -/

theorem KeepsItems.closed (h : c.KeepsItems d) (hc : c.Closed) : d.Closed := by
  intro k x y hy
  rw [h.get?] at hy
  refine (hc k x y hy).mono fun j z hz => ?_
  rwa [Resolves, h.get?]

theorem resolves_of_laysOut (hc : c.SectionsWellFormed) (h : c.LaysOut d) {x : Handle k} :
    d.Resolves k x ↔ c.Resolves k x := by
  rw [resolves_iff, resolves_iff, ← (h.wellFormed k).length_order, (h.order k).length_eq,
    (hc k).length_order]

theorem closed_of_laysOut (hwf : c.SectionsWellFormed) (hc : c.Closed) (h : c.LaysOut d) :
    d.Closed := by
  intro k x y hy
  cases k with
  | header => exact each_nil
  | mapList => exact each_nil
  | _ =>
    rw [h.items.get? rfl] at hy
    exact (hc _ x y hy).mono fun j z hz => (resolves_of_laysOut hwf h).2 hz

/-! ### Orders -/

theorem exists_text {h : Handle .stringId} (hc : c.Closed) (hh : c.Resolves _ h) :
    ∃ text, c.text h = .ok text := by
  obtain ⟨x, hx⟩ := hh
  obtain ⟨data, hdata⟩ : c.Resolves _ (StringId.data x) := by
    have := hc .stringId h x hx
    simpa [Content.handles, StringId.handles] using this
  exact ⟨_, by rw [text, get_eq_ok.2 hx, ok_bind, get_eq_ok.2 hdata]; rfl⟩

theorem exists_descriptorKey {h : Handle .typeId} (hc : c.Closed) (hh : c.Resolves _ h) :
    ∃ key, c.descriptorKey h = .ok key := by
  obtain ⟨x, hx⟩ := hh
  have hdescriptor : c.Resolves _ (TypeId.descriptor x) := by
    have := hc .typeId h x hx
    simpa [Content.handles, TypeId.handles] using this
  obtain ⟨text, htext⟩ := exists_text hc hdescriptor
  exact ⟨_, by rw [descriptorKey, descriptor, get_eq_ok.2 hx, ok_bind, htext]; rfl⟩

theorem exists_canonicalKey {x : Content k} (hc : c.Closed)
    (hx : Each c.Resolves (Content.handles k x)) : ∃ key, c.canonicalKey k x = .ok key := by
  cases k with
  | typeList =>
    simp only [Content.handles, TypeList.handles, each_map] at hx
    obtain ⟨keys, hkeys⟩ := exists_mapM_eq_ok fun t ht => exists_descriptorKey hc (hx t ht)
    exact ⟨_, by rw [canonicalKey, hkeys]; rfl⟩
  | annotationItem =>
    obtain ⟨visibility, type, elements⟩ := x
    obtain ⟨key, hkey⟩ := exists_descriptorKey hc (each_cons.1 hx).1
    exact ⟨⟨visibility.toNat, [key]⟩, by simp [canonicalKey, hkey]⟩
  | _ => exact ⟨_, rfl⟩

/-- The key of the item behind a number, with the number. -/
def keyed (c : Container) (k : Kind) (id : Nat) : Except Violation (Nat × Canonical.Key) :=
  c.withContent k id >>= c.withKey k

theorem keyed_eq_ok {id : Nat} {x : Nat × Canonical.Key} : c.keyed k id = .ok x ↔
    ∃ y, (c.sectionOf k).get? ⟨id⟩ = some y ∧ c.canonicalKey k y = .ok x.2 ∧ x.1 = id := by
  obtain ⟨n, key⟩ := x
  simp only [keyed, withContent, withKey, bind_eq_ok, pure_eq_ok, get_eq_ok]
  constructor
  · rintro ⟨_, ⟨y, hy, rfl⟩, _, hkey, h⟩
    cases h
    exact ⟨y, hy, hkey, rfl⟩
  · rintro ⟨y, hy, hkey, rfl⟩
    exact ⟨_, ⟨y, hy, rfl⟩, _, hkey, rfl⟩

theorem exists_keyed (hwf : c.SectionsWellFormed) (hc : c.Closed) (k : Kind) :
    ∃ items, (c.sectionOf k).order.toList.mapM (c.keyed k) = .ok items := by
  refine exists_mapM_eq_ok fun id hid => ?_
  obtain ⟨x, hx⟩ := resolves_iff.2 ((hwf k).mem_order.1 hid)
  obtain ⟨key, hkey⟩ := exists_canonicalKey hc (hc k _ x hx)
  exact ⟨(id, key), keyed_eq_ok.2 ⟨x, hx, hkey, rfl⟩⟩

/-- When every item has its key, the items are sorted by their keys. -/
theorem canonicalOrder_of_keyed {items : List (Nat × Canonical.Key)}
    (h : (c.sectionOf k).order.toList.mapM (c.keyed k) = .ok items) :
    c.canonicalOrder k =
      .ok ((items.mergeSort fun a b => (Canonical.Key.compare a.2 b.2).isLE).map (·.1)) := by
  obtain ⟨contents, hcontents, hitems⟩ := mapM_bind_eq_ok.1 h
  rw [canonicalOrder, hcontents, ok_bind, hitems]
  rfl

theorem exists_canonicalOrder (hwf : c.SectionsWellFormed) (hc : c.Closed) (k : Kind) :
    ∃ order, c.canonicalOrder k = .ok order := by
  obtain ⟨items, hitems⟩ := exists_keyed hwf hc k
  exact ⟨_, canonicalOrder_of_keyed hitems⟩

theorem exists_dependencies {x : ClassDef} (hx : Each c.Resolves x.handles) :
    ∃ types, c.dependencies x = .ok types := by
  obtain ⟨-, -, hinterfaces, -⟩ := ClassDef.each_handles.1 hx
  cases hi : x.interfaces with
  | none => exact ⟨_, by rw [dependencies, hi]; rfl⟩
  | some h =>
    obtain ⟨types, htypes⟩ := hinterfaces h hi
    exact ⟨x.superclass.toList ++ TypeList.types types,
      by simp [dependencies, hi, get_eq_ok.2 htypes]⟩

theorem exists_dependencyOrder (hwf : c.SectionsWellFormed) (hc : c.Closed) :
    ∃ order, c.dependencyOrder = .ok order := by
  obtain ⟨nodes, hnodes⟩ : ∃ nodes, (c.sectionOf .classDef).order.toList.mapM
      (c.classNode (c.definers (c.sectionOf .classDef).order.toList)) = .ok nodes := by
    refine exists_mapM_eq_ok fun id hid => ?_
    obtain ⟨x, hx⟩ := resolves_iff.2 ((hwf .classDef).mem_order.1 hid)
    obtain ⟨types, htypes⟩ := exists_dependencies (hc .classDef _ x hx)
    exact ⟨_, by rw [classNode, Section.get_eq_ok.2 hx, ok_bind, htypes]; rfl⟩
  exact ⟨_, by rw [dependencyOrder, hnodes]; rfl⟩

end DexContainer.Container
