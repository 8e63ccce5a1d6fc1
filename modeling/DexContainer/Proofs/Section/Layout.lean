import DexContainer.Proofs.Content
import DexContainer.Section.Lemmas

/-! The layout of a section. A layout is determined by where it starts and how long the items are:
every item starts at the first aligned offset after the item before it. Main statements:
`layout_eq`, what a layout computes; `stands_applyLayout`, the items take the positions of the
layout in file order; and `applyLayout_eq_self`, a section that stands as a layout says is not
changed by it. -/

namespace DexContainer.Section

variable {k : Kind} {places places' : Places}

/-! ### Offsets -/

/-- The offsets at which items of the given lengths start when they stand one after the other. -/
def startsFrom (k : Kind) (cursor : Nat) : List Nat → List Nat
  | [] => []
  | size :: sizes =>
    alignUp cursor k.alignment :: startsFrom k (alignUp cursor k.alignment + size) sizes

/-- The first offset after items of the given lengths. -/
def finishFrom (k : Kind) (cursor : Nat) : List Nat → Nat
  | [] => cursor
  | size :: sizes => finishFrom k (alignUp cursor k.alignment + size) sizes

theorem alignment_eq_two_pow (k : Kind) : ∃ e, k.alignment = 2 ^ e := by
  rcases k.alignment_eq with h | h
  · exact ⟨0, h⟩
  · exact ⟨2, h⟩

theorem le_alignUp (k : Kind) (offset : Nat) : offset ≤ alignUp offset k.alignment := by
  obtain ⟨e, he⟩ := alignment_eq_two_pow k
  rw [he]
  exact le_alignUp_two_pow offset e

theorem alignUp_of_dvd {offset : Nat} (h : k.alignment ∣ offset) :
    alignUp offset k.alignment = offset := by
  obtain ⟨e, he⟩ := alignment_eq_two_pow k
  apply Nat.le_antisymm _ (le_alignUp k offset)
  rw [he] at h ⊢
  exact alignUp_two_pow_le (Nat.le_refl _) h

theorem dvd_alignUp (k : Kind) (offset : Nat) : k.alignment ∣ alignUp offset k.alignment := by
  obtain ⟨e, he⟩ := alignment_eq_two_pow k
  rw [he]
  exact dvd_alignUp_two_pow offset e

@[simp] theorem alignUp_alignUp (k : Kind) (offset : Nat) :
    alignUp (alignUp offset k.alignment) k.alignment = alignUp offset k.alignment :=
  alignUp_of_dvd (dvd_alignUp k offset)

@[simp] theorem length_startsFrom (k : Kind) (cursor : Nat) (sizes : List Nat) :
    (startsFrom k cursor sizes).length = sizes.length := by
  induction sizes generalizing cursor with
  | nil => rfl
  | cons size sizes ih => simp [startsFrom, ih]

theorem startsFrom_alignUp (k : Kind) (cursor : Nat) (sizes : List Nat) :
    startsFrom k (alignUp cursor k.alignment) sizes = startsFrom k cursor sizes := by
  cases sizes with
  | nil => rfl
  | cons size sizes => rw [startsFrom, startsFrom, alignUp_alignUp]

theorem le_finishFrom (k : Kind) (cursor : Nat) (sizes : List Nat) :
    cursor ≤ finishFrom k cursor sizes := by
  induction sizes generalizing cursor with
  | nil => exact Nat.le_refl _
  | cons size sizes ih =>
    have := le_alignUp k cursor
    have := ih (alignUp cursor k.alignment + size)
    rw [finishFrom]
    omega

/-- Every item stands between the cursor and the end. -/
theorem forall₂_startsFrom (k : Kind) (cursor : Nat) (sizes : List Nat) :
    List.Forall₂ (fun start size => cursor ≤ start ∧ start + size ≤ finishFrom k cursor sizes)
      (startsFrom k cursor sizes) sizes := by
  induction sizes generalizing cursor with
  | nil => exact .nil
  | cons size sizes ih =>
    have hle := le_alignUp k cursor
    refine .cons ⟨hle, le_finishFrom k _ sizes⟩ ((ih _).imp fun start size h => ⟨?_, h.2⟩)
    omega

/-! ### What a layout computes -/

theorem get_eq_ok {s : Section k} {h : Handle k} {x : Content k} :
    s.get h = .ok x ↔ s.get? h = some x := by
  rw [get]
  cases s.get? h <;> simp

/-- The length of the item behind a number. -/
def sizeOf (places : Places) (s : Section k) (id : Nat) : Size := do
  Content.size places k (← s.get ⟨id⟩)

/-- The lengths of the items in file order. -/
def sizes (places : Places) (s : Section k) : Except Violation (List Nat) :=
  s.order.toList.mapM (s.sizeOf places)

/-- The layout of items of the given lengths. -/
def layoutOf (k : Kind) (start : Nat) (sizes : List Nat) : Layout :=
  if sizes.isEmpty then { offset? := none, positions := #[], next := start, byteSize := 0 }
  else
    let base := alignUp start k.alignment
    let next := finishFrom k base sizes
    let positions := if k.isIndexed then List.range sizes.length else startsFrom k base sizes
    { offset? := some base, positions := positions.toArray, next, byteSize := next - base }

theorem placeItem_eq (s : Section k) (cursor : Nat) (positions : Array Nat) (id : Nat) :
    placeItem places s (cursor, positions) id = do
      let size ← s.sizeOf places id
      return (alignUp cursor k.alignment + size, positions.push
        (if k.isIndexed then positions.size else alignUp cursor k.alignment)) := by
  simp only [placeItem, sizeOf, bind_assoc]

theorem push_append_toArray (xs : Array Nat) (n : Nat) (ns : List Nat) :
    xs.push n ++ ns.toArray = xs ++ (n :: ns).toArray := by
  rw [← Array.toList_inj]
  simp

theorem foldlM_placeItem (s : Section k) (ids : List Nat) (cursor : Nat) (positions : Array Nat) :
    ids.foldlM (placeItem places s) (cursor, positions) = do
      let sizes ← ids.mapM (s.sizeOf places)
      return (finishFrom k cursor sizes, positions ++
        (if k.isIndexed then List.range' positions.size sizes.length
          else startsFrom k cursor sizes).toArray) := by
  induction ids generalizing cursor positions with
  | nil => simp [finishFrom, startsFrom]
  | cons id ids ih =>
    rw [List.foldlM_cons, List.mapM_cons, placeItem_eq]
    cases s.sizeOf places id with
    | error e => rfl
    | ok size =>
      rw [ok_bind, ok_bind, pure_bind, ih, bind_assoc]
      cases ids.mapM (s.sizeOf places) with
      | error e => rfl
      | ok sizes =>
        simp only [ok_bind, pure_bind, finishFrom, startsFrom, Array.size_push, List.length_cons,
          List.range'_succ]
        cases k.isIndexed with
        | true => simp only [if_true, push_append_toArray]
        | false => simp only [Bool.false_eq_true, if_false, push_append_toArray]

/-- Nothing but the start and the lengths of the items counts. -/
theorem layout_eq (places : Places) (start : Nat) (s : Section k) :
    s.layout places start = do return layoutOf k start (← s.sizes places) := by
  simp only [layout, sizes, ← Array.foldlM_toList, foldlM_placeItem]
  cases horder : s.order.toList with
  | nil =>
    have hempty : s.order.isEmpty = true := by simpa using horder
    rw [if_pos hempty]
    rfl
  | cons id ids =>
    have hempty : ¬s.order.isEmpty = true := by simpa using fun h => by simp [h] at horder
    rw [if_neg hempty]
    cases hsizes : (id :: ids).mapM (s.sizeOf places) with
    | error e => rfl
    | ok sizes =>
      have hne : sizes.isEmpty = false := by
        have := length_of_mapM hsizes
        cases sizes with
        | nil => cases this
        | cons size sizes => rfl
      simp only [ok_bind, pure_bind, layoutOf, hne]
      simp [List.range_eq_range']

theorem size_layoutOf (k : Kind) (start : Nat) (sizes : List Nat) :
    (layoutOf k start sizes).positions.size = sizes.length := by
  cases sizes with
  | nil => rfl
  | cons size sizes =>
    simp only [layoutOf, List.isEmpty_cons, Bool.false_eq_true, if_false]
    split <;> simp

theorem layoutOf_alignUp {first : Nat} {sizes : List Nat} (hne : sizes ≠ []) :
    layoutOf k (alignUp first k.alignment) sizes = layoutOf k first sizes := by
  cases sizes with
  | nil => exact absurd rfl hne
  | cons size sizes => simp [layoutOf]

/-- A section with items starts at an aligned offset and spans the bytes up to the end. -/
theorem span_layoutOf (k : Kind) (start : Nat) {sizes : List Nat} (hne : sizes ≠ []) :
    (layoutOf k start sizes).offset? = some (alignUp start k.alignment) ∧
      alignUp start k.alignment + (layoutOf k start sizes).byteSize =
        (layoutOf k start sizes).next := by
  have hle := le_finishFrom k (alignUp start k.alignment) sizes
  rw [layoutOf, List.isEmpty_eq_false_iff.2 hne]
  exact ⟨rfl, Nat.add_sub_cancel' hle⟩

/-! ### Sections that hold together -/

/-- The file order lists every item once, and every item has room for a position. -/
structure WellFormed (s : Section k) : Prop where
  order : s.order.toList.Perm (List.range s.items.size)
  positions : s.positions.size = s.items.size

section WellFormed

variable {s t : Section k}

theorem WellFormed.mem_order (hs : s.WellFormed) {id : Nat} :
    id ∈ s.order.toList ↔ id < s.items.size := by
  rw [hs.order.mem_iff, List.mem_range]

theorem WellFormed.nodup (hs : s.WellFormed) : s.order.toList.Nodup :=
  hs.order.nodup_iff.2 List.nodup_range

theorem WellFormed.length_order (hs : s.WellFormed) : s.order.toList.length = s.items.size := by
  rw [hs.order.length_eq, List.length_range]

theorem wellFormed_empty : ({} : Section k).WellFormed := ⟨.nil, rfl⟩

theorem WellFormed.lt_of_position? (hs : s.WellFormed) {x : Handle k} {n : Nat}
    (hn : s.position? x = some n) : x.id < s.items.size := by
  obtain ⟨hlt, -⟩ := Array.getElem?_eq_some_iff.1 (position?_eq_some_iff.1 hn)
  rwa [hs.positions] at hlt

theorem WellFormed.push (hs : s.WellFormed) (x : Content k) : (s.push x).WellFormed := by
  cases s
  obtain ⟨horder, hpositions⟩ := hs
  refine ⟨?_, by simpa [Section.push] using hpositions⟩
  simp only [Section.push, Array.toList_push, Array.size_push, List.range_succ]
  exact horder.append_right _

theorem WellFormed.append (hs : s.WellFormed) (x : Content k) : (s.append x).WellFormed := by
  cases s
  exact ⟨(hs.push x).order, (hs.push x).positions⟩

theorem WellFormed.invalidate (hs : s.WellFormed) : s.invalidate.WellFormed :=
  ⟨hs.order, by simpa [Section.invalidate] using hs.positions⟩

theorem WellFormed.reorder (hs : s.WellFormed) {order : List Nat}
    (h : order.Perm s.order.toList) : (s.reorder order.toArray).WellFormed :=
  ⟨h.trans hs.order, hs.positions⟩

theorem WellFormed.replaceFirst (hs : s.WellFormed) (x : Content k) :
    (s.replaceFirst x).WellFormed :=
  ⟨by simpa [Section.replaceFirst] using hs.order,
    by simpa [Section.replaceFirst] using hs.positions⟩

end WellFormed

/-! ### Taking over a layout -/

/-- Stores values under some numbers. -/
def assign {α : Type} (pairs : List (Nat × α)) (values : Array (Option α)) : Array (Option α) :=
  pairs.foldl (fun values pair => values.setIfInBounds pair.1 (some pair.2)) values

section Assign

variable {α : Type} {pairs : List (Nat × α)} {values : Array (Option α)}

@[simp] theorem size_assign (pairs : List (Nat × α)) (values : Array (Option α)) :
    (assign pairs values).size = values.size := by
  induction pairs generalizing values with
  | nil => rfl
  | cons pair pairs ih => rw [assign, List.foldl_cons, ← assign, ih, Array.size_setIfInBounds]

theorem getElem?_assign_of_notMem {id : Nat} (h : id ∉ pairs.map Prod.fst) :
    (assign pairs values)[id]? = values[id]? := by
  induction pairs generalizing values with
  | nil => rfl
  | cons pair pairs ih =>
    rw [List.map_cons, List.mem_cons, not_or] at h
    rw [assign, List.foldl_cons, ← assign, ih h.2, Array.getElem?_setIfInBounds_ne (Ne.symm h.1)]

/-- When every number is stored to once, no value is overwritten. -/
theorem getElem?_assign_of_mem {pair : Nat × α} (hn : (pairs.map Prod.fst).Nodup) (h : pair ∈ pairs)
    (hlt : pair.1 < values.size) : (assign pairs values)[pair.1]? = some (some pair.2) := by
  induction pairs generalizing values with
  | nil => exact absurd h (by simp)
  | cons first pairs ih =>
    rw [List.map_cons, List.nodup_cons] at hn
    rw [assign, List.foldl_cons, ← assign]
    rcases List.mem_cons.1 h with rfl | h
    · rw [getElem?_assign_of_notMem hn.1, Array.getElem?_setIfInBounds_self_of_lt hlt]
    · exact ih hn.2 h (by simpa using hlt)

/-- What is found under a number was there or has been stored. -/
theorem mem_or_of_getElem?_assign {id : Nat} {x : α}
    (h : (assign pairs values)[id]? = some (some x)) :
    (id, x) ∈ pairs ∨ values[id]? = some (some x) := by
  induction pairs generalizing values with
  | nil => exact .inr h
  | cons pair pairs ih =>
    rw [assign, List.foldl_cons, ← assign] at h
    rcases ih h with h | h
    · exact .inl (List.mem_cons_of_mem _ h)
    · rw [Array.getElem?_setIfInBounds] at h
      split at h
      · rename_i hid
        split at h
        · simp only [Option.some.injEq] at h
          rw [← hid, ← h]
          exact .inl (List.mem_cons_self ..)
        · cases h
      · exact .inr h

end Assign

theorem positions_applyLayout (s : Section k) (l : Layout) :
    (s.applyLayout l).positions =
      assign (s.order.toList.zip l.positions.toList) (Array.replicate s.positions.size none) := by
  simp only [applyLayout, assign, ← Array.foldl_toList, Array.toList_zip]

theorem WellFormed.applyLayout {s : Section k} (hs : s.WellFormed) (l : Layout) :
    (s.applyLayout l).WellFormed := by
  refine ⟨hs.order, ?_⟩
  rw [positions_applyLayout, size_assign, Array.size_replicate]
  exact hs.positions

/-- The section stands as a layout says. -/
structure Stands (s : Section k) (l : Layout) : Prop where
  positions : s.positionsInOrder = l.positions.toList.map some
  offset? : s.offset? = l.offset?
  byteSize : s.byteSize = l.byteSize

variable {s t : Section k} {l : Layout}

theorem positionsInOrder_eq (s : Section k) :
    s.positionsInOrder = s.order.toList.map fun id => s.position? ⟨id⟩ := by
  simp [positionsInOrder, handles]

theorem Stands.exists_position (h : s.Stands l) (hs : s.WellFormed) {x : Handle k}
    (hx : x.id < s.items.size) : ∃ n, s.position? x = some n := by
  have hmem : s.position? x ∈ s.positionsInOrder := by
    rw [positionsInOrder_eq]
    exact List.mem_map_of_mem (f := fun id => s.position? ⟨id⟩) (hs.mem_order.2 hx)
  rw [h.positions] at hmem
  obtain ⟨n, -, hn⟩ := List.mem_map.1 hmem
  exact ⟨n, hn.symm⟩

/-- The numbers of an indexed section are given out in file order. -/
theorem Stands.position?_of_isIndexed {start : Nat} {sizes : List Nat}
    (h : s.Stands (layoutOf k start sizes)) (hk : k.isIndexed = true)
    (hlen : sizes.length = s.order.size) {i : Nat} (hi : i < s.order.toList.length) :
    s.position? ⟨s.order.toList[i]⟩ = some i := by
  have hi' : i < s.order.size := by simpa using hi
  have hne : sizes ≠ [] := by
    rintro rfl
    rw [List.length_nil] at hlen
    omega
  have hget := congrArg (·[i]?) h.positions
  rw [positionsInOrder_eq] at hget
  simp only [List.getElem?_map, List.getElem?_eq_getElem hi, layoutOf, hk,
    List.isEmpty_eq_false_iff.2 hne] at hget
  simpa [hlen, List.getElem?_range hi'] using hget

theorem WellFormed.position?_eq_none (hs : s.WellFormed) {x : Handle k}
    (hx : s.items.size ≤ x.id) : s.position? x = none := by
  have hnone : s.positions[x.id]? = none := by
    rw [Array.getElem?_eq_none_iff, hs.positions]
    exact hx
  rw [position?, hnone]
  rfl

/-- The positions in file order determine those of all items. -/
theorem position?_congr (hs : s.WellFormed) (ht : t.WellFormed)
    (hsize : s.items.size = t.items.size)
    (horder : s.order = t.order) (h : s.positionsInOrder = t.positionsInOrder) (x : Handle k) :
    s.position? x = t.position? x := by
  rw [positionsInOrder_eq, positionsInOrder_eq, horder, List.map_inj_left] at h
  by_cases hx : x.id < t.items.size
  · exact h x.id (ht.mem_order.2 hx)
  · rw [hs.position?_eq_none (by omega), ht.position?_eq_none (by omega)]

theorem positions_congr (hs : s.WellFormed) (ht : t.WellFormed)
    (hsize : s.items.size = t.items.size)
    (horder : s.order = t.order) (h : s.positionsInOrder = t.positionsInOrder) :
    s.positions = t.positions := by
  have hposition := position?_congr hs ht hsize horder h
  apply Array.ext
  · rw [hs.positions, ht.positions, hsize]
  · intro i hi hi'
    have := hposition ⟨i⟩
    simpa [position?, hi, hi'] using this

@[simp] theorem order_applyLayout (s : Section k) (l : Layout) :
    (s.applyLayout l).order = s.order := rfl

theorem stands_applyLayout (hs : s.WellFormed) (hl : l.positions.size = s.order.size) :
    (s.applyLayout l).Stands l := by
  refine ⟨?_, rfl, rfl⟩
  rw [positionsInOrder_eq, order_applyLayout]
  have hlength : s.order.toList.length = l.positions.toList.length := by simpa using hl.symm
  apply List.ext_getElem
  · simpa using hl.symm
  · intro i hi hi'
    have hi : i < s.order.toList.length := by simpa using hi
    have hi' : i < l.positions.toList.length := by simpa using hi'
    have hzip : i < (s.order.toList.zip l.positions.toList).length := by
      rw [List.length_zip]
      omega
    have hmem : (s.order.toList[i], l.positions.toList[i]) ∈
        s.order.toList.zip l.positions.toList := by
      have := List.getElem_mem hzip
      rwa [List.getElem_zip] at this
    have hnodup : ((s.order.toList.zip l.positions.toList).map Prod.fst).Nodup := by
      rw [List.map_fst_zip (Nat.le_of_eq hlength)]
      exact hs.nodup
    have hlt : s.order.toList[i] < (Array.replicate s.positions.size (none : Option Nat)).size := by
      rw [Array.size_replicate, hs.positions]
      exact hs.mem_order.1 (List.getElem_mem _)
    have hget := getElem?_assign_of_mem hnodup hmem hlt
    simp only [List.getElem_map, position?, positions_applyLayout, hget, Option.getD_some]

theorem applyLayout_eq_self (hs : s.WellFormed) (hl : s.Stands l) : s.applyLayout l = s := by
  have hsize : l.positions.size = s.order.size := by
    have := congrArg List.length hl.positions
    simpa [positionsInOrder_eq] using this.symm
  have hstands := stands_applyLayout hs hsize
  have hpositions : (s.applyLayout l).positions = s.positions :=
    positions_congr (hs.applyLayout l) hs rfl rfl (hstands.positions.trans hl.positions.symm)
  have hoffset := hl.offset?
  have hbyteSize := hl.byteSize
  cases s
  simp only [applyLayout, Section.mk.injEq, true_and] at hpositions ⊢
  exact ⟨hpositions, hoffset.symm, hbyteSize.symm⟩

end DexContainer.Section
