import DexContainer.Proofs.Container.Closed

/-! The one way in which a layout can fail. When every handle leads to an item, the class
definitions and the data sections can be put into order and every item can be measured, so a layout
ends unless code keeps moving. Main statement: `exists_or_unsettled`. -/

namespace DexContainer.Container

variable {c d : Container} {k : Kind} {ks : List Kind} {start finish rounds : Nat}

/-- The items that keep their numbers have their positions. -/
def NumbersPlaced (c : Container) : Prop :=
  ∀ (k : Kind) (h : Handle k), k.isNumbered = true → c.Resolves k h → c.places.IsPlaced k h

theorem isMeasurable_of_resolves (hc : c.NumbersPlaced) {h : Handle k} (hh : c.Resolves k h) :
    c.places.IsMeasurable k h := by
  intro hmeasured hcode
  refine hc k h ?_ hh
  revert hmeasured hcode
  cases k <;> decide

theorem exists_sizes (hwf : c.SectionsWellFormed)
    (h : k.isIndexed = true ∨ c.Closed ∧ c.NumbersPlaced) :
    ∃ sizes, (c.sectionOf k).sizes c.places = .ok sizes := by
  refine exists_mapM_eq_ok fun id hid => ?_
  obtain ⟨x, hx⟩ := resolves_iff.2 ((hwf k).mem_order.1 hid)
  obtain ⟨n, hn⟩ : ∃ n, Content.size c.places k x = .ok n := by
    rcases h with hk | ⟨hclosed, hnumbers⟩
    · cases k <;> first | exact ⟨_, rfl⟩ | cases hk
    · exact Content.exists_size
        ((hclosed k _ x hx).mono fun _ _ => isMeasurable_of_resolves hnumbers)
  exact ⟨n, by rw [Section.sizeOf, Section.get_eq_ok.2 hx]; exact hn⟩

theorem numbersPlaced_of_frame (hc : c.NumbersPlaced)
    (h : ∀ k, k.isNumbered = true → d.sectionOf k = c.sectionOf k) : d.NumbersPlaced := by
  intro k x hk hx
  rw [Resolves, h k hk] at hx
  obtain ⟨n, hn⟩ := hc k x hk hx
  exact ⟨n, (position?_congr (h k hk)).trans hn⟩

theorem exists_placeSections (hwf : c.SectionsWellFormed) (hks : ∀ k ∈ ks, k.isNumbered = false)
    (hc : c.Closed) (hn : c.NumbersPlaced) (start : Nat) :
    ∃ d finish, placeSections ks c start = .ok (d, finish) := by
  induction ks generalizing c start with
  | nil => exact ⟨c, start, rfl⟩
  | cons k ks ih =>
    obtain ⟨sizes, hsizes⟩ := exists_sizes (k := k) hwf (.inr ⟨hc, hn⟩)
    have hrearranges := rearranges_applyLayout (c := c) (k := k) (Section.layoutOf k start sizes)
    have hk := hks k (List.mem_cons_self ..)
    have hframe : ∀ j, j.isNumbered = true → (c.modifySection k
        (·.applyLayout (Section.layoutOf k start sizes))).sectionOf j = c.sectionOf j := by
      intro j hj
      refine sectionOf_modifySection_of_ne c _ ?_
      rintro rfl
      rw [hk] at hj
      cases hj
    obtain ⟨d, finish, h⟩ := ih (hrearranges.wellFormed hwf)
      (fun j hj => hks j (List.mem_cons_of_mem _ hj)) (hrearranges.items.closed hc)
      (numbersPlaced_of_frame hn hframe) (Section.layoutOf k start sizes).next
    exact ⟨d, finish, placeSections_cons_eq_ok.2 ⟨sizes, hsizes, h⟩⟩

theorem exists_placeSections_of_isIndexed (ks : List Kind) (hwf : c.SectionsWellFormed)
    (hks : ∀ k ∈ ks, k.isIndexed = true) (start : Nat) :
    ∃ d finish, placeSections ks c start = .ok (d, finish) := by
  induction ks generalizing c start with
  | nil => exact ⟨c, start, rfl⟩
  | cons k ks ih =>
    obtain ⟨sizes, hsizes⟩ := exists_sizes hwf (.inl (hks k (List.mem_cons_self ..)))
    have hrearranges := rearranges_applyLayout (c := c) (k := k) (Section.layoutOf k start sizes)
    obtain ⟨d, finish, h⟩ := ih (hrearranges.wellFormed hwf)
      (fun j hj => hks j (List.mem_cons_of_mem _ hj)) (Section.layoutOf k start sizes).next
    exact ⟨d, finish, placeSections_cons_eq_ok.2 ⟨sizes, hsizes, h⟩⟩

theorem exists_orderClasses (hwf : c.SectionsWellFormed) (hc : c.Closed) :
    ∃ d, c.orderClasses = .ok d := by
  rw [orderClasses]
  split
  · obtain ⟨order, horder⟩ := exists_dependencyOrder hwf hc
    exact ⟨_, by rw [horder]; rfl⟩
  · exact ⟨c, rfl⟩

theorem exists_sortSection (hwf : c.SectionsWellFormed) (hc : c.Closed) (k : Kind) :
    ∃ d, c.sortSection k = .ok d := by
  rw [sortSection]
  split
  · obtain ⟨order, horder⟩ := exists_canonicalOrder hwf hc k
    exact ⟨_, by rw [horder]; rfl⟩
  · exact ⟨c, rfl⟩

theorem exists_sortData (hwf : c.SectionsWellFormed) (hc : c.Closed) : ∃ d, c.sortData = .ok d := by
  rw [sortData]
  split
  · rename_i hsorts
    clear hsorts
    generalize Kind.dataOrder = ks
    induction ks generalizing c with
    | nil => exact ⟨c, rfl⟩
    | cons k ks ih =>
      obtain ⟨e, he⟩ := exists_sortSection hwf hc k
      obtain ⟨hce, -⟩ := rearranges_sortSection he
      obtain ⟨d, hd⟩ := ih (hce.wellFormed hwf) (hce.items.closed hc)
      exact ⟨d, by rw [List.foldlM_cons, he]; exact hd⟩
  · exact ⟨c, rfl⟩

theorem isNumbered_of_mem_dataOrder (hk : k ∈ Kind.dataOrder) : k.isNumbered = false := by
  revert hk
  cases k <;> decide

/-- Every round ends, so only their number can run out. -/
theorem exists_or_unsettled_of_settle (hwf : c.SectionsWellFormed) (hc : c.Closed)
    (hn : c.NumbersPlaced) (start rounds : Nat) :
    (∃ d finish, settle start rounds c = .ok (d, finish)) ∨
      settle start rounds c = .error (.unsettled maxRounds) := by
  induction rounds generalizing c with
  | zero => exact .inr rfl
  | succ rounds ih =>
    obtain ⟨d, finish, h⟩ :=
      exists_placeSections hwf (fun k => isNumbered_of_mem_dataOrder) hc hn start
    obtain ⟨hcd, -, hframe⟩ := rearranges_placeSections h
    have hn' : d.NumbersPlaced := numbersPlaced_of_frame hn fun k hk => by
      refine hframe k fun hmem => ?_
      rw [isNumbered_of_mem_dataOrder hmem] at hk
      cases hk
    rw [settle, placeData, h, ok_bind]
    simp only
    split
    · exact .inl ⟨d, finish, rfl⟩
    · exact ih (hcd.wellFormed hwf) (hcd.items.closed hc) hn'

theorem numbersPlaced_of_stacked (hwf : c.SectionsWellFormed)
    (h : c.Stacked Kind.tables start finish) : c.NumbersPlaced := by
  intro k x hk hx
  have hmem : k ∈ Kind.tables := by
    revert hk
    cases k <;> decide
  obtain ⟨_, _, -, -, hstands, -⟩ := h.stands hmem
  exact hstands.exists_position (hwf k) (resolves_iff.1 hx)

/-! ### The steps around the rounds -/

/-- Lays out the map behind the data and fills in the header. -/
def conclude (dataOffset : Nat) (r : Container × Nat) : Except Violation (Container × Nat) := do
  let (c, dataEnd) := r
  let mapOffset := alignUp dataEnd Kind.mapList.alignment
  let map : MapList := ⟨c.mapEntries mapOffset⟩
  let c := c.modifySection .mapList (·.replaceFirst map)
  let (c, fileSize) ← placeSection .mapList c mapOffset
  return ({ c.stampHeader dataOffset mapOffset fileSize with stage := .placed }, fileSize)

theorem placeWithin_eq (c : Container) (rounds : Nat) : c.placeWithin rounds =
    c.prepare >>= fun r => settle r.2 rounds r.1 >>= conclude r.2 := by
  simp only [placeWithin, prepare, bind_assoc, pure_bind]
  rfl

theorem exists_prepare (hwf : c.SectionsWellFormed) (hc : c.Closed) :
    ∃ d start, c.prepare = .ok (d, start) ∧ d.NumbersPlaced := by
  obtain ⟨c1, n1, h1⟩ := exists_placeSections_of_isIndexed [.header] hwf (by decide) 0
  obtain ⟨r1, -, -⟩ := rearranges_placeSections h1
  obtain ⟨c2, h2⟩ := exists_orderClasses (r1.wellFormed hwf) (r1.items.closed hc)
  have r2 := r1.trans (rearranges_orderClasses h2).1
  obtain ⟨c3, n3, h3⟩ := exists_placeSections_of_isIndexed Kind.tables (r2.wellFormed hwf)
    (by decide) n1
  have r3 := r2.trans (rearranges_placeSections h3).1
  have hn3 : c3.NumbersPlaced := numbersPlaced_of_stacked (r3.wellFormed hwf)
    (stacked_of_placeSections (by decide) (r2.wellFormed hwf) h3 (.inl (by decide)))
  obtain ⟨c4, h4⟩ := exists_sortData (r3.wellFormed hwf) (r3.items.closed hc)
  obtain ⟨-, hframe⟩ := rearranges_sortData h4
  exact ⟨c4, n3, prepare_eq_ok.2 ⟨c1, n1, c2, c3, h1, h2, h3, h4⟩,
    numbersPlaced_of_frame hn3 fun k hk => hframe k (by revert hk; cases k <;> decide)⟩

theorem exists_conclude (hwf : c.SectionsWellFormed) (start finish : Nat) :
    ∃ d fileSize, conclude start (c, finish) = .ok (d, fileSize) ∧
      ∀ k, k.isSingleton = false → d.sectionOf k = c.sectionOf k := by
  generalize hm : MapList.mk (c.mapEntries (alignUp finish Kind.mapList.alignment)) = m
  have hwf' : (c.modifySection .mapList (·.replaceFirst m)).SectionsWellFormed :=
    forall_modifySection (P := fun _ s => s.WellFormed) ((hwf .mapList).replaceFirst m)
      fun k _ => hwf k
  obtain ⟨d, fileSize, h⟩ := exists_placeSections_of_isIndexed [.mapList] hwf' (by decide)
    (alignUp finish Kind.mapList.alignment)
  rw [placeSections_singleton] at h
  refine ⟨_, fileSize, by simp only [conclude, hm, h, ok_bind]; rfl, fun k hk => ?_⟩
  subst hm
  exact (closes_of_placeSection h).other k hk

/-- A layout ends unless code keeps moving. -/
theorem exists_or_unsettled (hwf : c.SectionsWellFormed) (hc : c.Closed) (rounds : Nat) :
    (∃ d fileSize, c.placeWithin rounds = .ok (d, fileSize)) ∨
      c.placeWithin rounds = .error (.unsettled maxRounds) := by
  obtain ⟨e, start, hprepare, hn⟩ := exists_prepare hwf hc
  obtain ⟨hce, -⟩ := of_prepare hwf hprepare
  have hwf' := hce.wellFormed hwf
  rw [placeWithin_eq, hprepare, ok_bind]
  rcases exists_or_unsettled_of_settle hwf' (hce.items.closed hc) hn start rounds with
    ⟨d, finish, h⟩ | h
  · left
    obtain ⟨f, fileSize, hf, -⟩ :=
      exists_conclude ((stacked_of_settle hwf' h).1.wellFormed hwf') start finish
    exact ⟨f, fileSize, by rw [h, ok_bind, hf]⟩
  · right
    rw [h]
    rfl

end DexContainer.Container
